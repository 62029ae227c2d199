import FermiOs.Sched.Lifecycle

/-!
# The scheduler on its pointers

`sched.c` keeps both of its lists in one `next` pointer per task record. Here the records live at
addresses, the lists are what the pointers make them, and every operation walks and relinks the
pointers as the source does. The loops are bounded by the number of records; `Repr` ties a state to
the two lists of addresses it represents, and each operation is shown to do on the lists what
`Sched.Queue` says.
-/

namespace FermiOs
open Library List Function

/-- A call of `sched_free_task`, with the scheduler's pointers at that moment. -/
structure FreeEvent where
  task : Nat
  current : Nat
  next : Nat → Nat

/-- The freed task was neither current nor reached by following `next` from the current task. -/
def FreeEvent.Safe (e : FreeEvent) : Prop :=
  e.task ≠ e.current ∧ ∀ n, e.next^[n] e.current ≠ e.task

/-- The variables of the scheduler. `live` (the records created and not freed) and `frees` (what was
freed, latest first) are for the statements; no operation reads them but to bound its loops. -/
structure RawSched where
  next : Nat → Nat
  task : Nat → Task
  current : Nat
  deadList : Nat
  ticks : Nat
  nextPid : Nat
  live : List Nat
  frees : List FreeEvent

/-- `&idle_task`. -/
def idlePtr : Nat := 1

variable {c prev x : Nat} {dead gap kept ring todo : List Nat} {m m' m'' : RawSched}

namespace RawSched

section
variable (m : RawSched)

/-- Enough rounds for a loop over the records, including those freed while `sched_reap` still links
through them. -/
def rounds : Nat := m.live.length + m.frees.length

/-- `p->next = q`. -/
def setNext (p q : Nat) : RawSched := { m with next := update m.next p q }

/-- Rewrites the record at `p`. -/
def modify (p : Nat) (f : Task → Task) : RawSched :=
  { m with task := update m.task p (f (m.task p)) }

/-- The predecessor of `p` in the ring: `q = p; while (q->next != p) q = q->next`. -/
def predecessor (p : Nat) : Nat :=
  walk m.next (fun q => decide (m.next q = p)) m.rounds p

/-- `sched_free_task`. -/
def schedFreeTask (p : Nat) : RawSched :=
  { m with live := m.live.erase p, frees := ⟨p, m.current, m.next⟩ :: m.frees }

/-- `sched_orphan_children`. -/
def schedOrphanChildren (ppid : Nat) : RawSched :=
  if ppid = 0 then m
  else
    let body := fun task p => update task p (orphan ppid (task p))
    -- the ring, starting at the idle task
    let task := sweep m.next (fun t => decide (t = 0 ∨ t = idlePtr)) body m.rounds (m.next idlePtr)
      (body m.task idlePtr)
    -- the dead list, as far as it is linked
    { m with task := sweep m.next (fun d => decide (d = 0)) body m.rounds m.deadList task }

/-- A survivor of `sched_reap` is linked behind the one before it, or becomes the first. -/
def keepEntry (prev c : Nat) : RawSched :=
  if prev ≠ 0 then m.setNext prev c else { m with deadList := c }

end

/-- The loop of `sched_reap`. -/
def reapLoop : Nat → RawSched → Nat → Nat → RawSched
  | 0, m, _, _ => m
  | n + 1, m, prev, c =>
    if c = 0 then if prev ≠ 0 then m.setNext prev 0 else m
    else
      let next := m.next c
      if (m.task c).ppid ≠ 0 then reapLoop n (m.keepEntry prev c) c next
      else reapLoop n ((m.schedOrphanChildren (m.task c).pid).schedFreeTask c) prev next

/-- `sched_reap`: one round more than there are entries. -/
def schedReap (m : RawSched) : RawSched :=
  reapLoop (m.live.length + 1) { m with deadList := 0 } 0 m.deadList

/-- The search loop of `schedule`, with the idle task remembered as the fallback. -/
def pickLoop (m : RawSched) (prev : Nat) : Nat → Nat → Nat → Nat × Nat
  | 0, next, fallback => (next, fallback)
  | n + 1, next, fallback =>
    if next = prev then (next, fallback)
    else if (m.task next).state = .ready then
      if next = idlePtr then
        pickLoop m prev n (m.next next) (if fallback = 0 then next else fallback)
      else (next, fallback)
    else pickLoop m prev n (m.next next) fallback

/-- The end of `schedule`: the current task leaves, `next` runs. -/
def switchTo (m : RawSched) (next : Nat) : RawSched :=
  let prev := m.current
  let m := m.modify prev Queue.parked
  let m :=
    if (m.task prev).state = .dead then
      let m := m.setNext (m.predecessor prev) (m.next prev)
      let m := m.modify prev Queue.bury
      { m.setNext prev m.deadList with deadList := prev }
    else m
  { m.modify next fun t => { t with state := .running } with current := next }

/-- `schedule`. -/
def schedule (m : RawSched) : RawSched :=
  let m := m.schedReap
  let (next, fallback) := m.pickLoop m.current m.rounds (m.next m.current) 0
  if next = m.current then
    if fallback = 0 ∨ (m.task m.current).state = .running then m else m.switchTo fallback
  else m.switchTo next

/-- The new record at `p` is linked in before the current task. -/
def insert (m : RawSched) (p : Nat) (t : Task) : RawSched :=
  let m := { m with task := update m.task p t, live := p :: m.live }
  (m.setNext (m.predecessor m.current) p).setNext p m.current

/-- `task_exit`. -/
def taskExit (m : RawSched) (code : Int) : RawSched :=
  (m.modify m.current fun t => { t with exitCode := code, state := .dead }).schedule

/-- The search of `sched_kill_task` for a pid other than `0`, from the idle task on. -/
def findPid (m : RawSched) (pid : Nat) : Nat :=
  walk m.next (fun t => decide (t = idlePtr ∨ (m.task t).pid = pid)) m.rounds (m.next idlePtr)

/-- `sched_kill_task`, with its return value. -/
def schedKillTask (m : RawSched) (pid : Nat) : Int × RawSched :=
  if pid = 0 then (-1, m)
  else
    let t := m.findPid pid
    if (m.task t).pid ≠ pid then (-1, m)
    else if (m.task t).state = .dead then (-1, m)
    else if t = m.current then (0, m.taskExit 0)
    else
      let m := m.setNext (m.predecessor t) (m.next t)
      let m := { m.setNext t m.deadList with deadList := t }
      (0, m.modify t fun task => { Queue.bury task with exitCode := -1 })

/-- `sleep_ms`. -/
def sleepMs (m : RawSched) (ms : Nat) : RawSched :=
  let ticksNeeded :=
    if ms / Queue.timerIntervalMs = 0 then 1 else ms / Queue.timerIntervalMs
  (m.modify m.current fun t =>
    { t with sleepUntil := (m.ticks + ticksNeeded) % 2 ^ 64, state := .sleeping }).schedule

/-- The timer interrupt: `sched_wake_sleepers` at the next tick. -/
def tick (m : RawSched) : RawSched :=
  let now := m.ticks + 1
  let body := fun task p => update task p (Queue.wake now (task p))
  { m with
    ticks := now
    task := sweep m.next (fun t => decide (t = idlePtr)) body m.rounds (m.next idlePtr) m.task }

/-- `has_matching_child`. -/
def hasMatchingChild (m : RawSched) (pidArg : Int) : Bool :=
  let cur := m.task m.current
  let onRing := fun t => decide (t ≠ m.current) && Queue.isChild cur pidArg (m.task t)
  let t := walk m.next (fun t => decide (t = 0 ∨ t = idlePtr) || onRing t) m.rounds (m.next idlePtr)
  let d := walk m.next (fun d => decide (d = 0) || Queue.isChild cur pidArg (m.task d)) m.rounds
    m.deadList
  onRing idlePtr || onRing t || (decide (d ≠ 0) && Queue.isChild cur pidArg (m.task d))

/-- The search of `sched_waitpid` on the dead list: the entry before the match, and the match. -/
def waitScan (m : RawSched) (pidArg : Int) : Nat → Nat → Nat → Nat × Nat
  | 0, prev, c => (prev, c)
  | n + 1, prev, c =>
    if c = 0 then (prev, c)
    else if Queue.isChild (m.task m.current) pidArg (m.task c) then (prev, c)
    else waitScan m pidArg n c (m.next c)

/-- The match is unlinked and freed. -/
def waitUnlink (m : RawSched) (prev c : Nat) : RawSched :=
  (if prev ≠ 0 then m.setNext prev (m.next c) else { m with deadList := m.next c }).schedFreeTask c

/-- What a round of `sched_waitpid` gives its caller: a value, a child's pid and status, or nothing
yet. -/
inductive WaitResult
  | returned (r : Int)
  | collected (pid : Nat) (status : Nat)
  | blocked
  deriving DecidableEq

/-- One round of `sched_waitpid`. -/
def schedWaitpid (m : RawSched) (pidArg : Int) (options : Nat) : WaitResult × RawSched :=
  if pidArg < -1 then (.returned (-1), m)
  else
    let (prev, c) := m.waitScan pidArg m.rounds 0 m.deadList
    if c ≠ 0 then
      (.collected (m.task c).pid (Queue.waitStatus (m.task c).exitCode), m.waitUnlink prev c)
    else if m.hasMatchingChild pidArg = false then (.returned (-1), m)
    else if options &&& Queue.wnohang ≠ 0 then (.returned 0, m)
    else (.blocked, m.schedule)

/-! ## The lists a state represents -/

/-- The pointers of `m` form the ring `m.current :: ring` and the dead list `dead`, and these are
the live records. -/
structure Repr (m : RawSched) (ring dead : List Nat) : Prop where
  cycle : Path m.next m.current (m.current :: ring) m.current
  chain : Path m.next m.deadList dead 0
  nodup : (m.current :: ring ++ dead).Nodup
  null : 0 ∉ m.current :: ring ++ dead
  live : m.live.Perm (m.current :: ring ++ dead)
  idle : idlePtr ∈ m.current :: ring
  idlePid : (m.task idlePtr).pid = 0

section
variable (m : RawSched) (ring dead : List Nat)

/-- The queue a state represents. -/
def queue : Queue :=
  ⟨m.task m.current, ring.map m.task, dead.map m.task⟩

/-- Distinct records carry distinct pids. -/
def PidsDistinct : Prop :=
  ((m.current :: ring ++ dead).map fun p => (m.task p).pid).Nodup

lemma queue_all : (m.queue ring dead).all = (m.current :: ring ++ dead).map m.task := by
  simp [queue, Queue.all, Queue.ring]

end

lemma pidsDistinct_of_wf {bound : Nat} (h : (m.queue ring dead).Wf bound) :
    m.PidsDistinct ring dead := by
  have hnd := h.pids
  rw [queue_all, map_map] at hnd
  exact hnd

/-! ## Orphaning and reaping -/

section
variable {ds : List Nat}

section
variable (hcycle : Path m.next m.current (m.current :: ring) m.current)
  (hidle : idlePtr ∈ m.current :: ring) (hds : Path m.next m.deadList ds 0)
  (hnd : (m.current :: ring ++ ds).Nodup) (hnull : 0 ∉ m.current :: ring ++ ds)
  (hlen : ring.length ≤ m.rounds) (hlen' : ds.length ≤ m.rounds)
include hcycle hidle hds hnd hnull hlen hlen'

/-- The two loops of `sched_orphan_children`, one after the other, come to the cells of the ring and
to those linked from `dead_list`. -/
lemma orphan_sweeps {σ : Type} :
    ∃ cells : List Nat, cells.Perm (m.current :: ring ++ ds) ∧ ∀ (body : σ → Nat → σ) (a : σ),
      sweep m.next (fun d => decide (d = 0)) body m.rounds m.deadList
        (sweep m.next (fun t => decide (t = 0 ∨ t = idlePtr)) body m.rounds (m.next idlePtr)
          (body a idlePtr)) = cells.foldl body a := by
  obtain ⟨others, hring, hperm⟩ := hcycle.ring_at hidle
  have hndo : (idlePtr :: others).Nodup := hperm.nodup_iff.mpr (nodup_append.mp hnd).1
  have hcells : ∀ x ∈ others, x ≠ 0 ∧ x ≠ idlePtr := by
    intro x hx
    have hmem : x ∈ m.current :: ring := hperm.subset (mem_cons_of_mem _ hx)
    refine ⟨fun h0 => hnull (mem_append_left _ (h0 ▸ hmem)), fun h1 => ?_⟩
    exact (nodup_cons.mp hndo).1 (h1 ▸ hx)
  have hlo : others.length ≤ m.rounds := by
    have := hperm.length_eq
    simp only [length_cons] at this
    omega
  have hds0 : ∀ x ∈ ds, x ≠ 0 := fun x hx h0 => hnull (mem_append_right _ (h0 ▸ hx))
  refine ⟨idlePtr :: others ++ ds, hperm.append_right ds, fun body a => ?_⟩
  rw [sweep_eq_foldl hds (by simp) (fun x hx => by simpa using hds0 x hx) hlen',
    sweep_eq_foldl hring.2 (by simp) (fun x hx => by simpa using hcells x hx) hlo,
    foldl_append, foldl_cons]

/-- **`sched_orphan_children`** rewrites the records of the ring and those linked from
`dead_list`. -/
lemma schedOrphanChildren_task (ppid p : Nat) : (m.schedOrphanChildren ppid).task p =
      if p ∈ m.current :: ring ++ ds then orphan ppid (m.task p) else m.task p := by
  unfold schedOrphanChildren
  split
  · rename_i hz
    subst hz
    have hid : orphan 0 (m.task p) = m.task p := by simp [orphan]
    rw [hid, ite_self]
  obtain ⟨cells, hperm, hsweep⟩ := orphan_sweeps hcycle hidle hds hnd hnull hlen hlen'
  dsimp only
  rw [hsweep, foldl_update_apply _ _ _ (hperm.nodup_iff.mpr hnd)]
  simp only [hperm.mem_iff]

end

lemma schedOrphanChildren_links (m : RawSched) (ppid : Nat) :
    ∃ task, m.schedOrphanChildren ppid = { m with task := task } := by
  unfold schedOrphanChildren
  split
  · exact ⟨m.task, rfl⟩
  · exact ⟨_, rfl⟩

end

/-- The state in the middle of `sched_reap`: `kept` are the survivors, `gap` the records freed since
the last survivor, which still links to them, and `todo` the entries from `c` on. -/
structure Reaping (m : RawSched) (prev c : Nat) (ring kept gap todo : List Nat) : Prop where
  cycle : Path m.next m.current (m.current :: ring) m.current
  chain : Path m.next c todo 0
  survivors : kept = [] ∧ gap = [] ∧ prev = 0 ∧ m.deadList = 0 ∨
    (∃ ks, kept = ks ++ [prev]) ∧ Path m.next m.deadList (kept ++ (gap ++ todo)) 0
  nodup : (m.current :: ring ++ (kept ++ (gap ++ todo))).Nodup
  null : 0 ∉ m.current :: ring ++ (kept ++ (gap ++ todo))
  live : m.live.Perm (m.current :: ring ++ (kept ++ todo))
  freed : gap.length ≤ m.frees.length
  idle : idlePtr ∈ m.current :: ring
  idlePid : (m.task idlePtr).pid = 0

namespace Reaping

/-- The cells of the ring and the dead list are apart. -/
lemma disjoint (h : Reaping m prev c ring kept gap todo) (hx : x ∈ kept ++ (gap ++ todo)) :
    x ∉ m.current :: ring := fun hr =>
  (nodup_append.mp h.nodup).2.2 x hr x hx rfl

lemma ne_zero (h : Reaping m prev c ring kept gap todo)
    (hx : x ∈ m.current :: ring ++ (kept ++ (gap ++ todo))) : x ≠ 0 := fun h0 => h.null (h0 ▸ hx)

/-- The pass over the dead list is complete. -/
lemma finish (h : Reaping m prev 0 ring kept gap []) :
    Repr (if prev ≠ 0 then m.setNext prev 0 else m) ring kept := by
  have hlive : m.live.Perm (m.current :: ring ++ kept) := by simpa using h.live
  have hsub : (m.current :: ring ++ kept).Sublist
      (m.current :: ring ++ (kept ++ (gap ++ []))) := by simp
  have hnd := h.nodup.sublist hsub
  have hnull : 0 ∉ m.current :: ring ++ kept := fun hm => h.null (hsub.subset hm)
  rcases h.survivors with ⟨rfl, -, rfl, hdl⟩ | ⟨⟨ks, rfl⟩, hpath⟩
  · exact ⟨h.cycle, hdl, hnd, hnull, hlive, h.idle, h.idlePid⟩
  have hp : prev ∈ ks ++ [prev] := by simp
  have hp0 : prev ≠ 0 := h.ne_zero (by simp)
  rw [if_pos hp0]
  obtain ⟨r, hks, -⟩ := Path.append_iff.mp hpath
  refine ⟨h.cycle.update (h.disjoint (mem_append_left _ hp)), hks.update_last ?_, hnd, hnull,
    hlive, h.idle, h.idlePid⟩
  intro hm
  have hk := (nodup_append.mp hnd).2.1
  exact (nodup_append.mp hk).2.2 prev hm prev (by simp) rfl

lemma survive (h : Reaping m prev c ring kept gap (c :: todo)) :
    Reaping (m.keepEntry prev c) c (m.next c) ring (kept ++ [c]) [] todo := by
  have hsub : (m.current :: ring ++ (kept ++ [c] ++ ([] ++ todo))).Sublist
      (m.current :: ring ++ (kept ++ (gap ++ c :: todo))) := by simp
  have hnd := h.nodup.sublist hsub
  have hnull : 0 ∉ m.current :: ring ++ (kept ++ [c] ++ ([] ++ todo)) :=
    fun hm => h.null (hsub.subset hm)
  have hlive : m.live.Perm (m.current :: ring ++ (kept ++ [c] ++ todo)) := by simpa using h.live
  unfold keepEntry
  rcases h.survivors with ⟨rfl, rfl, rfl, hdl⟩ | ⟨⟨ks, rfl⟩, hpath⟩
  · rw [if_neg (by simp)]
    exact ⟨h.cycle, h.chain.2, .inr ⟨⟨[], rfl⟩, h.chain⟩, hnd, hnull, hlive, Nat.zero_le _,
      h.idle, h.idlePid⟩
  have hp : prev ∈ ks ++ [prev] := by simp
  have hp0 : prev ≠ 0 := h.ne_zero (by simp)
  have hpt : prev ∉ c :: todo := by
    intro hm
    have hk := (nodup_append.mp h.nodup).2.1
    exact (nodup_append.mp hk).2.2 prev hp prev (mem_append_right _ hm) rfl
  have hpk : prev ∉ ks := by
    intro hm
    have hk := (nodup_append.mp (nodup_append.mp h.nodup).2.1).1
    exact (nodup_append.mp hk).2.2 prev hm prev (by simp) rfl
  obtain ⟨r, hks, -⟩ := Path.append_iff.mp hpath
  have hchain : Path (m.setNext prev c).next c (c :: todo) 0 := h.chain.update hpt
  rw [if_pos hp0]
  refine ⟨h.cycle.update (h.disjoint (mem_append_left _ hp)), ?_, .inr ⟨⟨_, rfl⟩, ?_⟩, hnd,
    hnull, hlive, Nat.zero_le _, h.idle, h.idlePid⟩
  · exact h.chain.2.update fun hm => hpt (mem_cons_of_mem _ hm)
  · have hcells : ks ++ [prev] ++ [c] ++ ([] ++ todo) = ks ++ [prev] ++ c :: todo := by simp
    rw [hcells]
    exact (hks.update_last hpk).append hchain

/-- What `sched_orphan_children` reaches from `dead_list` in the middle of the pass. -/
lemma reached (h : Reaping m prev c ring kept gap todo) :
    ∃ ds, (kept = [] ∧ ds = [] ∨ kept ≠ [] ∧ ds = kept ++ (gap ++ todo)) ∧
      Path m.next m.deadList ds 0 ∧ (m.current :: ring ++ ds).Nodup ∧
      0 ∉ m.current :: ring ++ ds ∧ ring.length ≤ m.rounds ∧ ds.length ≤ m.rounds := by
  have hlive := h.live.length_eq
  have hfreed := h.freed
  simp only [length_append, length_cons] at hlive
  rcases h.survivors with ⟨rfl, -, -, hdl⟩ | ⟨⟨ks, rfl⟩, hpath⟩
  · refine ⟨[], .inl ⟨rfl, rfl⟩, hdl, ?_, fun hm => h.null ?_, ?_, Nat.zero_le _⟩
    · simpa using (nodup_append.mp h.nodup).1
    · exact mem_append_left _ (by simpa using hm)
    · simp only [rounds]
      omega
  · refine ⟨_, .inr ⟨by simp, rfl⟩, hpath, h.nodup, h.null, ?_, ?_⟩ <;>
      simp only [rounds, length_append] at hlive ⊢ <;> omega

lemma orphan_task (h : Reaping m prev c ring kept gap todo) (ppid : Nat) :
    ∃ ds, (kept = [] ∧ ds = [] ∨ kept ≠ [] ∧ ds = kept ++ (gap ++ todo)) ∧
      ∀ p, (m.schedOrphanChildren ppid).task p =
        if p ∈ m.current :: ring ++ ds then orphan ppid (m.task p) else m.task p := by
  obtain ⟨ds, hds, hpath, hnd, hnull, hlen, hlen'⟩ := h.reached
  exact ⟨ds, hds, schedOrphanChildren_task h.cycle h.idle hpath hnd hnull hlen hlen' ppid⟩

variable (h : Reaping m prev c ring kept gap (c :: todo))
include h

/-- The entries still to come are reached through a survivor only. -/
lemma orphan_todo (ppid : Nat) : todo.map (m.schedOrphanChildren ppid).task =
      if kept = [] then todo.map m.task else (todo.map m.task).map (orphan ppid) := by
  obtain ⟨ds, ⟨rfl, rfl⟩ | ⟨hne, rfl⟩, htask⟩ := h.orphan_task ppid
  · rw [if_pos rfl]
    refine map_congr_left fun p hp => ?_
    have hp' : p ∉ m.current :: ring := h.disjoint (by simp [hp])
    exact (htask p).trans (if_neg (by simpa using hp'))
  · rw [if_neg hne, map_map]
    exact map_congr_left fun p hp => (htask p).trans (if_pos (by simp [hp]))

/-- A parentless entry is freed, after its children have been orphaned. -/
lemma free (ppid : Nat) :
    Reaping ((m.schedOrphanChildren ppid).schedFreeTask c) prev (m.next c) ring kept
      (if kept = [] then [] else gap ++ [c]) todo := by
  obtain ⟨task, hm⟩ := m.schedOrphanChildren_links ppid
  have hidlePid : ((m.schedOrphanChildren ppid).task idlePtr).pid = 0 := by
    obtain ⟨ds, -, htask⟩ := h.orphan_task ppid
    rw [htask]
    split
    · rw [(OrphanedBy.of_orphan ppid [] _).pid_eq, h.idlePid]
    · exact h.idlePid
  have hlive : (m.live.erase c).Perm (m.current :: ring ++ (kept ++ todo)) := by
    have hmove : (m.current :: ring ++ (kept ++ c :: todo)).Perm
        (c :: (m.current :: ring ++ (kept ++ todo))) := by
      have hmid : (m.current :: ring ++ kept ++ c :: todo).Perm
          (c :: (m.current :: ring ++ kept ++ todo)) := perm_middle
      simpa using hmid
    have herase := (h.live.trans hmove).erase c
    rwa [erase_cons_head] at herase
  rw [hm] at hidlePid ⊢
  rcases h.survivors with ⟨rfl, rfl, hprev, hdl⟩ | ⟨hks, hpath⟩
  · have hsub : (m.current :: ring ++ ([] ++ ([] ++ todo))).Sublist
        (m.current :: ring ++ ([] ++ ([] ++ c :: todo))) := by simp
    exact ⟨h.cycle, h.chain.2, .inl ⟨rfl, rfl, hprev, hdl⟩, h.nodup.sublist hsub,
      fun h0 => h.null (hsub.subset h0), hlive, Nat.zero_le _, h.idle, hidlePid⟩
  have hcells : gap ++ c :: todo = gap ++ [c] ++ todo := by simp
  have hne : kept ≠ [] := by
    obtain ⟨ks, rfl⟩ := hks
    simp
  rw [if_neg hne]
  refine ⟨h.cycle, h.chain.2, .inr ⟨hks, hcells ▸ hpath⟩, hcells ▸ h.nodup,
    hcells ▸ h.null, hlive, ?_, h.idle, hidlePid⟩
  have hfreed := h.freed
  simp only [schedFreeTask, length_append, length_cons, length_nil]
  omega

end Reaping

/-- An operation left the clock and the pid counter alone, and whatever it freed was off the run
queue. -/
structure Quiet (m m' : RawSched) : Prop where
  ticks : m'.ticks = m.ticks
  nextPid : m'.nextPid = m.nextPid
  frees : ∃ es, m'.frees = es ++ m.frees ∧ ∀ e ∈ es, e.Safe

/-- It also left the task on the processor. -/
structure Frame (m m' : RawSched) : Prop extends Quiet m m' where
  current : m'.current = m.current

lemma Quiet.of_eq (hticks : m'.ticks = m.ticks) (hnextPid : m'.nextPid = m.nextPid)
    (hfrees : m'.frees = m.frees) : Quiet m m' :=
  ⟨hticks, hnextPid, [], hfrees, by simp⟩

lemma Quiet.trans (h : Quiet m m') (h' : Quiet m' m'') : Quiet m m'' := by
  obtain ⟨es, hes, hsafe⟩ := h.frees
  obtain ⟨es', hes', hsafe'⟩ := h'.frees
  refine ⟨h'.ticks.trans h.ticks, h'.nextPid.trans h.nextPid, es' ++ es,
    by rw [hes', hes, append_assoc], ?_⟩
  exact forall_mem_append.mpr ⟨hsafe', hsafe⟩

lemma Frame.trans (h : Frame m m') (h' : Frame m' m'') : Frame m m'' :=
  ⟨h.toQuiet.trans h'.toQuiet, h'.current.trans h.current⟩

/-- Freeing a record that is not in the ring. -/
lemma frame_schedFreeTask {p : Nat} (hcycle : Path m.next m.current (m.current :: ring) m.current)
    (hp : p ∉ m.current :: ring) :
    Frame m (m.schedFreeTask p) := by
  refine ⟨⟨rfl, rfl, [⟨p, m.current, m.next⟩], rfl, ?_⟩, rfl⟩
  simp only [mem_singleton, forall_eq]
  refine ⟨fun he : p = m.current => hp (he ▸ mem_cons_self),
    fun n (he : m.next^[n] m.current = p) => hp ?_⟩
  rw [← he]
  exact hcycle.ring_iterate_mem (cons_ne_nil _ _) n

lemma Reaping.frame_free {ppid : Nat} (h : Reaping m prev c ring kept gap (c :: todo)) :
    Frame m ((m.schedOrphanChildren ppid).schedFreeTask c) := by
  obtain ⟨task, hm⟩ := m.schedOrphanChildren_links ppid
  have hc : c ∉ m.current :: ring := h.disjoint (by simp)
  have hframe : Frame { m with task := task } (schedFreeTask { m with task := task } c) :=
    frame_schedFreeTask h.cycle hc
  rw [hm]
  exact ⟨⟨hframe.ticks, hframe.nextPid, hframe.frees⟩, hframe.current⟩

lemma keepEntry_links (m : RawSched) (prev c : Nat) :
    ∃ next deadList, m.keepEntry prev c = { m with next := next, deadList := deadList } := by
  unfold keepEntry
  split
  · exact ⟨_, _, rfl⟩
  · exact ⟨_, _, rfl⟩

/-- **The loop of `sched_reap`** does on the pointers what it does on the lists. -/
lemma reapLoop_spec (n : Nat) (h : Reaping m prev c ring kept gap todo) (hn : todo.length < n) :
    ∃ dead, Repr (reapLoop n m prev c) ring dead ∧ (reapLoop n m prev c).queue ring dead =
        (Queue.reapLoop todo.length (m.queue ring kept) (todo.map m.task)).1 ∧
      Frame m (reapLoop n m prev c) := by
  induction n generalizing m prev c kept gap todo with
  | zero => omega
  | succ n ih =>
    cases todo with
    | nil =>
      obtain rfl : c = 0 := h.chain
      rw [reapLoop, if_pos rfl]
      refine ⟨kept, h.finish, ?_, ?_⟩
      · split <;> rfl
      · split <;> exact ⟨.of_eq rfl rfl rfl, rfl⟩
    | cons x todo =>
      obtain ⟨rfl, hchain⟩ := h.chain
      have hc0 : c ≠ 0 := h.ne_zero (by simp)
      have hn : todo.length < n := Nat.lt_of_succ_lt_succ hn
      rw [reapLoop, if_neg hc0, map_cons, length_cons, Queue.reapLoop]
      split
      · -- the entry survives: only a link changed
        obtain ⟨links, first, hkeep⟩ := m.keepEntry_links prev c
        obtain ⟨dead, hrepr, hqueue, hframe⟩ := ih h.survive hn
        refine ⟨dead, hrepr, ?_, ?_⟩
        · rw [hqueue, hkeep]
          simp [queue]
        · refine Frame.trans ?_ hframe
          rw [hkeep]
          exact ⟨.of_eq rfl rfl rfl, rfl⟩
      -- the entry is freed: the records of its children changed
      have hfree := h.free (m.task c).pid
      obtain ⟨dead, hrepr, hqueue, hframe⟩ := ih hfree hn
      obtain ⟨ds, hds, htask⟩ := h.orphan_task (m.task c).pid
      obtain ⟨task, hm⟩ := m.schedOrphanChildren_links (m.task c).pid
      refine ⟨dead, hrepr, ?_, ?_⟩
      · have hcells : ∀ l : List Nat, (∀ p ∈ l, p ∈ m.current :: ring ++ ds) →
            l.map (m.schedOrphanChildren (m.task c).pid).task =
              (l.map m.task).map (orphan (m.task c).pid) := by
          intro l hl
          rw [map_map]
          exact map_congr_left fun p hp => by rw [htask, if_pos (hl p hp)]; rfl
        have hcur : (m.schedOrphanChildren (m.task c).pid).task m.current =
            orphan (m.task c).pid (m.task m.current) := by rw [htask, if_pos (by simp)]
        have hlinks : (m.schedOrphanChildren (m.task c).pid).current = m.current := by rw [hm]
        have hring := hcells ring fun p hp => by simp [hp]
        have hq : ((m.schedOrphanChildren (m.task c).pid).schedFreeTask c).queue ring kept =
            ⟨orphan (m.task c).pid (m.task m.current), (ring.map m.task).map (orphan (m.task c).pid),
              (kept.map m.task).map (orphan (m.task c).pid)⟩ := by
          simp only [queue, schedFreeTask, hlinks, hcur, hring]
          rcases hds with ⟨rfl, -⟩ | ⟨-, rfl⟩
          · rfl
          · rw [hcells kept fun p hp => by simp [hp]]
        have htodo : todo.map ((m.schedOrphanChildren (m.task c).pid).schedFreeTask c).task =
            if (m.queue ring kept).dead.isEmpty then todo.map m.task
            else (todo.map m.task).map (orphan (m.task c).pid) :=
          (h.orphan_todo _).trans (by cases kept <;> rfl)
        rw [hqueue, hq, htodo]
        rfl
      · exact h.frame_free.trans hframe

/-- The start of a pass, and rounds enough for it. -/
lemma Repr.reaping (h : Repr m ring dead) :
    Reaping { m with deadList := 0 } 0 m.deadList ring [] [] dead ∧
      dead.length < m.live.length + 1 := by
  refine ⟨⟨h.cycle, h.chain, .inl ⟨rfl, rfl, rfl, rfl⟩, h.nodup, h.null, h.live, Nat.zero_le _,
    h.idle, h.idlePid⟩, ?_⟩
  rw [h.live.length_eq, length_append]
  omega

/-- **`sched_reap`** on the pointers is `reap` on the lists. -/
lemma Repr.schedReap (h : Repr m ring dead) : ∃ dead', Repr m.schedReap ring dead' ∧
      m.schedReap.queue ring dead' = (m.queue ring dead).reap.1 ∧ Frame m m.schedReap := by
  obtain ⟨hstart, hlen⟩ := h.reaping
  obtain ⟨dead', hrepr, hqueue, hframe⟩ := reapLoop_spec _ hstart hlen
  refine ⟨dead', hrepr, ?_, ⟨hframe.ticks, hframe.nextPid, hframe.frees⟩, hframe.current⟩
  rw [RawSched.schedReap, hqueue]
  simp [Queue.reap, queue]

end RawSched
end FermiOs
