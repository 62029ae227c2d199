import FermiOs.Sched.RingRun
import FermiOs.Sched.Wait

/-!
# `waitpid` under preemption

`syscall_dispatch` unmasks interrupts, and `sched_waitpid` does not mask them: the timer can take the
processor away after the search of the dead list has found a child and before the child is unlinked.
What the search found then waits on the kernel stack of the caller while other tasks change the dead
list. Here a round of `sched_waitpid` that finds a child is two steps. When nothing comes between the
two, `waitpid` answers as it should; when a sibling exits in between, the sibling is lost.
-/

namespace FermiOs
open Library List Function

/-- What an interrupted `waitpid` keeps on its kernel stack: what it was asked for, the child it has
found, and the entry before the child. -/
structure Found where
  pidArg : Int
  prev : Nat
  child : Nat
  deriving DecidableEq

/-- The scheduler, and for each record what an interrupted `waitpid` of this task has found. -/
structure Preemptible where
  sched : RawSched
  found : Nat → Option Found

/-- The steps: the search of a round of `waitpid` and all of the round if it finds no child, the
unlinking of what the search found, and the other operations. -/
inductive PreemptOp
  | scan (pidArg : Int) (options : Nat)
  | unlink
  | other (op : RawOp)

namespace Preemptible

/-- `sched_init`. -/
def boot : Preemptible := ⟨.boot, fun _ => none⟩

/-- What the search of a round finds; the child is null if there is none. -/
def search (m : RawSched) (pidArg : Int) : Found :=
  if pidArg < -1 then ⟨pidArg, 0, 0⟩
  else ⟨pidArg, (m.waitScan pidArg m.rounds 0 m.deadList).1,
    (m.waitScan pidArg m.rounds 0 m.deadList).2⟩

/-- A new record starts with nothing found. -/
def forget (found : Nat → Option Found) : RawOp → Nat → Option Found
  | .create p _ => update found p none
  | .fork p _ _ => update found p none
  | _ => found

def step (w : Preemptible) : PreemptOp → Preemptible
  | .scan pidArg options =>
    if (search w.sched pidArg).child ≠ 0 then
      { w with found :=
        Function.update w.found w.sched.current (some (search w.sched pidArg)) }
    else { w with sched := (w.sched.schedWaitpid pidArg options).2 }
  | .unlink =>
    match w.found w.sched.current with
    | some f =>
      ⟨w.sched.waitUnlink f.prev f.child, update w.found w.sched.current none⟩
    | none => w
  | .other op => ⟨w.sched.step op, forget w.found op⟩

/-- What `waitpid` returns at the end of a step, if it returns. -/
def answer (w : Preemptible) : PreemptOp → Option RawSched.WaitResult
  | .scan pidArg options =>
    if (search w.sched pidArg).child ≠ 0 then none else some (w.sched.schedWaitpid pidArg options).1
  | .unlink =>
    (w.found w.sched.current).map fun f =>
      .collected (w.sched.task f.child).pid (Queue.waitStatus (w.sched.task f.child).exitCode)
  | .other _ => none

/-- The child the caller of `waitpid` asked for. -/
def asked (w : Preemptible) : PreemptOp → Option Int
  | .scan pidArg _ => some pidArg
  | .unlink => (w.found w.sched.current).map Found.pidArg
  | .other _ => none

/-- The steps of the timer. -/
def isTimer : RawOp → Bool
  | .schedule => true
  | .tick => true
  | _ => false

/-- A whole round of `waitpid`, here split in two. -/
def isWait : RawOp → Bool
  | .waitpid _ _ => true
  | _ => false

/-- A task inside `waitpid` goes on with it; until it does, only the timer acts on its time. -/
def Allowed (w : Preemptible) : PreemptOp → Prop
  | .scan _ _ => w.found w.sched.current = none
  | .unlink => w.found w.sched.current ≠ none
  | .other op => w.sched.Allowed op ∧ isWait op = false ∧
      (w.found w.sched.current = none ∨ isTimer op = true)

instance (w : Preemptible) (op : PreemptOp) : Decidable (w.Allowed op) := by
  cases op <;> dsimp only [Allowed] <;> infer_instance

/-- No interrupt is taken between the search and the unlinking. -/
def Uninterrupted (w : Preemptible) (op : PreemptOp) : Prop :=
  w.Allowed op ∧ (w.found w.sched.current ≠ none → op = .unlink)

instance (w : Preemptible) : (op : PreemptOp) → Decidable (w.Uninterrupted op)
  | .scan pidArg options => decidable_of_iff
      (w.Allowed (.scan pidArg options) ∧ w.found w.sched.current = none)
      (by simp [Uninterrupted])
  | .unlink => decidable_of_iff (w.Allowed .unlink) (by simp [Uninterrupted])
  | .other op => decidable_of_iff (w.Allowed (.other op) ∧ w.found w.sched.current = none)
      (by simp [Uninterrupted])

section
variable (w : Preemptible)

/-- The records created and not freed. -/
def tasks : List Task := w.sched.live.map w.sched.task

/-- The record of the current task. -/
def cur : Task := w.sched.task w.sched.current

/-- A child of the current task, of the kind `waitpid` was asked for. -/
def Child (pidArg : Int) (t : Task) : Prop :=
  t ∈ w.tasks ∧ t.pid ≠ w.cur.pid ∧ t.ppid = w.cur.pid ∧ (pidArg = -1 ∨ pidArg = t.pid)

/-- The task `pid` exists and has not terminated. -/
def Lives (pid : Nat) : Prop :=
  ∃ t ∈ w.tasks, t.pid = pid ∧ ¬ t.Terminated

/-- The pid of the child a step collects. -/
def collectedPid (op : PreemptOp) : Option Nat :=
  match w.answer op with
  | some (.collected pid _) => some pid
  | _ => none

end

/-- How often `waitpid` returns the pid `child` in a run. -/
def collections : Preemptible → List PreemptOp → Nat → Nat
  | _, [], _ => 0
  | w, op :: ops, child =>
    (if w.collectedPid op = some child then 1 else 0) + collections (w.step op) ops child

/-! ## A lost child -/

/-- A parent waits for any child while its first child is a zombie. The timer interrupts the wait
after the search, the second child exits, and the parent then unlinks the first. -/
def lostChildRun : List PreemptOp :=
  [.other (.create 8 idleTask), .other .schedule, .other (.fork 9 idleTask true),
    .other (.fork 10 idleTask true), .other .schedule, .other (.exit 0), .other .schedule,
    .scan (-1) 0, .other .schedule, .other (.exit 0), .unlink]

lemma search_pidArg (m : RawSched) (pidArg : Int) : (search m pidArg).pidArg = pidArg := by
  unfold search
  split <;> rfl

/-- The pointers represent the lists of `s`, and only the current task is inside `waitpid`, with what
the search finds in this very state. -/
structure Tracks (w : Preemptible) (s : Sched) : Prop where
  sim : ∃ ring dead, w.sched.Simulates s ring dead
  wf : s.Wf
  found : ∀ p f, w.found p = some f →
    p = w.sched.current ∧ f = search w.sched f.pidArg ∧ f.child ≠ 0

variable {op : PreemptOp} {ops : List PreemptOp} {parent : Nat} {pidArg : Int} {t : Task}

namespace Tracks
variable {w : Preemptible} {s : Sched} (h : Tracks w s)
include h

lemma cur_eq : w.cur = s.queue.cur := by
  obtain ⟨ring, dead, hsim⟩ := h.sim
  rw [hsim.queue]
  rfl

lemma mem_tasks : t ∈ w.tasks ↔ t ∈ s.queue.all := by
  obtain ⟨ring, dead, hsim⟩ := h.sim
  rw [hsim.queue, RawSched.queue_all]
  exact (hsim.repr.live.map w.sched.task).mem_iff

lemma child_iff : w.Child pidArg t ↔ s.queue.Child pidArg t := by
  rw [Child, Queue.Child, h.mem_tasks, h.cur_eq]

lemma lives_iff {pid : Nat} : w.Lives pid ↔ s.queue.Alive pid := by
  constructor
  · rintro ⟨t, ht, hpid, hterm⟩
    have hall := h.mem_tasks.mp ht
    refine ⟨t, (mem_append.mp hall).resolve_right fun hd => hterm ?_, hpid⟩
    exact (h.wf.queue.terminated_iff h.wf.runs hall).mpr hd
  · rintro ⟨t, ht, hpid⟩
    have hall : t ∈ s.queue.all := mem_append_left _ ht
    refine ⟨t, h.mem_tasks.mpr hall, hpid, fun hterm => ?_⟩
    exact h.wf.queue.notMem_dead ht ((h.wf.queue.terminated_iff h.wf.runs hall).mp hterm)

/-- A task that is not inside `waitpid` leaves nobody inside it. -/
lemma found_none (hcur : w.found w.sched.current = none) (p : Nat) : w.found p = none := by
  cases hp : w.found p with
  | none => rfl
  | some f =>
    obtain ⟨rfl, -⟩ := h.found p f hp
    rw [hcur] at hp
    cases hp

section
variable (pidArg : Int) (options : Nat)

/-- The answer of a round on the pointers is the answer on the lists. -/
lemma round_eq : (w.sched.schedWaitpid pidArg options).1 =
      .ofRound (s.queue.waitpid pidArg options).1 := by
  obtain ⟨ring, dead, hsim⟩ := h.sim
  have hwf : (w.sched.queue ring dead).Wf s.nextPid := hsim.queue ▸ h.wf.queue
  obtain ⟨-, hround⟩ := hsim.repr.schedWaitpid hwf pidArg options
  rw [hround, hsim.queue]

/-- A whole round on the pointers is a round on the lists. -/
lemma of_round {found : Nat → Option Found} (hfound : ∀ p, found p = none) :
    Tracks ⟨(w.sched.schedWaitpid pidArg options).2, found⟩ (s.step (.waitpid pidArg options)) := by
  obtain ⟨ring, dead, hsim⟩ := h.sim
  have hmoves : RawSched.Moves w.sched (w.sched.step (.waitpid pidArg options)) s
      [.waitpid pidArg options] := RawSched.step_moves hsim h.wf trivial
  refine ⟨hmoves.sim, Sched.step_wf h.wf trivial, fun p f (hf : found p = some f) => ?_⟩
  rw [hfound] at hf
  cases hf

lemma collected_eq (hop : w.answer op = some (w.sched.schedWaitpid pidArg options).1) :
    w.collectedPid op = (s.collected (.waitpid pidArg options)).map Task.pid := by
  rw [collectedPid, hop, h.round_eq, Sched.collected]
  cases (s.queue.waitpid pidArg options).1 <;> rfl

end

/-- What the current task's search found is what a whole round collects. -/
lemma round_of_found {f : Found} (hf : w.found w.sched.current = some f) :
    -1 ≤ f.pidArg ∧ w.sched.schedWaitpid f.pidArg 0 =
      (.collected (w.sched.task f.child).pid (Queue.waitStatus (w.sched.task f.child).exitCode),
        w.sched.waitUnlink f.prev f.child) := by
  obtain ⟨-, hsearch, hc⟩ := h.found _ f hf
  unfold search at hsearch
  split_ifs at hsearch with hneg
  · rw [hsearch] at hc
    exact absurd rfl hc
  refine ⟨by omega, ?_⟩
  have hprev := congrArg Found.prev hsearch
  have hchild := congrArg Found.child hsearch
  dsimp only at hprev hchild
  rw [RawSched.schedWaitpid, if_neg hneg]
  dsimp only
  rw [← hchild, if_pos hc, ← hprev]

/-- **One uninterrupted step** is at most one operation on the lists, and collects the same child. -/
lemma step (hop : w.Uninterrupted op) :
    ∃ ls, Tracks (w.step op) (ls.foldl Sched.step s) ∧ Obeys Sched.Allowed Sched.step s ls ∧
      (ls = [] ∨ ∃ o, ls = [o]) ∧
      ∀ child, s.collections ls child = if w.collectedPid op = some child then 1 else 0 := by
  obtain ⟨hallowed, hnext⟩ := hop
  cases op with
  | scan pidArg options =>
    have hnone := h.found_none hallowed
    simp only [Preemptible.step]
    split_ifs with hc
    · refine ⟨[], ⟨h.sim, h.wf, fun p f hf => ?_⟩, trivial, Or.inl rfl, fun child => ?_⟩
      · dsimp only at hf
        by_cases hp : p = w.sched.current
        · subst hp
          rw [update_self] at hf
          cases hf
          refine ⟨rfl, ?_, hc⟩
          rw [search_pidArg]
        · rw [update_of_ne hp, hnone] at hf
          cases hf
      · simp [Sched.collections, collectedPid, answer, hc]
    refine ⟨[.waitpid pidArg options], h.of_round pidArg options hnone, ⟨trivial, trivial⟩,
      .inr ⟨_, rfl⟩, fun child => ?_⟩
    rw [h.collected_eq pidArg options (by rw [answer, if_neg hc])]
    simp [Sched.collections]
  | unlink =>
    obtain ⟨f, hf⟩ := Option.ne_none_iff_exists'.mp hallowed
    obtain ⟨-, hround⟩ := h.round_of_found hf
    have hempty : ∀ p, update w.found w.sched.current none p = none := by
      intro p
      by_cases hp : p = w.sched.current
      · subst hp
        exact update_self _ _ _
      · rw [update_of_ne hp]
        cases hfp : w.found p with
        | none => rfl
        | some f' => exact absurd (h.found p f' hfp).1 hp
    have htracks := h.of_round f.pidArg 0 hempty
    rw [hround] at htracks
    refine ⟨[.waitpid f.pidArg 0], ?_, ⟨trivial, trivial⟩, .inr ⟨_, rfl⟩, fun child => ?_⟩
    · simp only [Preemptible.step, hf]
      exact htracks
    · rw [h.collected_eq f.pidArg 0 (by rw [answer, hf, hround]; rfl)]
      simp [Sched.collections]
  | other op =>
    have hcur : w.found w.sched.current = none := by
      by_contra hne
      exact PreemptOp.noConfusion (hnext hne)
    have hnone := h.found_none hcur
    have hforget : ∀ p, forget w.found op p = none := by
      intro p
      unfold forget
      split
      · simp [update, hnone]
      · simp [update, hnone]
      · exact hnone p
    obtain ⟨ring, dead, hsim⟩ := h.sim
    have hmoves := RawSched.step_moves hsim h.wf hallowed.1
    refine ⟨RawSched.listOps op, ⟨hmoves.sim, h.wf.run hmoves.obeys,
      fun p f (hf : forget w.found op p = some f) => ?_⟩, hmoves.obeys, ?_, fun child => ?_⟩
    · rw [hforget] at hf
      cases hf
    · cases op <;> simp only [RawSched.listOps] <;> try split
      all_goals simp
    · have hwait := hallowed.2.1
      cases op <;> simp only [RawSched.listOps] <;> try split
      all_goals simp_all [Sched.collections, Sched.collected, collectedPid, answer, isWait]

/-- **An uninterrupted run** is a run on the lists with the same collections, and every state on the
way there is a state on the way here. -/
lemma run (hops : Obeys Uninterrupted Preemptible.step w ops) :
    ∃ ls, Tracks (ops.foldl Preemptible.step w) (ls.foldl Sched.step s) ∧
      Obeys Sched.Allowed Sched.step s ls ∧
      (∀ child, s.collections ls child = w.collections ops child) ∧
      ∀ part, part <+: ls → ∃ part', part' <+: ops ∧ (part ≠ ls → part' ≠ ops) ∧
        Tracks (part'.foldl Preemptible.step w) (part.foldl Sched.step s) := by
  induction ops generalizing w s with
  | nil =>
    refine ⟨[], h, trivial, fun _ => rfl, fun part hpart => ⟨[], prefix_rfl, ?_⟩⟩
    rw [prefix_nil.mp hpart]
    exact ⟨fun hne => absurd rfl hne, h⟩
  | cons op ops ih =>
    obtain ⟨ls, htracks, hobeys, hlen, hcount⟩ := h.step hops.1
    obtain ⟨ls', htracks', hobeys', hcount', hpart'⟩ := ih htracks hops.2
    refine ⟨ls ++ ls', ?_, ?_, ?_, ?_⟩
    · rw [foldl_append]
      exact htracks'
    · rcases hlen with rfl | ⟨o, rfl⟩
      · exact hobeys'
      · exact ⟨hobeys.1, hobeys'⟩
    · intro child
      rw [Sched.collections_append, hcount, hcount', collections]
    intro part hpart
    have hlater : ∀ rest, rest <+: ls' → ∃ part', part' <+: op :: ops ∧
        (rest ≠ ls' → part' ≠ op :: ops) ∧
        Tracks (part'.foldl Preemptible.step w) (rest.foldl Sched.step (ls.foldl Sched.step s)) := by
      intro rest hrest
      obtain ⟨part', hpre, hne, htr⟩ := hpart' rest hrest
      exact ⟨op :: part', by simpa using hpre, fun hr => by simpa using hne hr, htr⟩
    rcases hlen with rfl | ⟨o, rfl⟩
    · exact hlater part hpart
    · rcases prefix_cons_iff.mp hpart with rfl | ⟨rest, rfl, hrest⟩
      · exact ⟨[], nil_prefix, fun _ => by simp, h⟩
      · obtain ⟨part', hpre, hne, htr⟩ := hlater rest hrest
        exact ⟨part', hpre, fun hr => hne (by simpa using hr), htr⟩

end Tracks

lemma boot_tracks : Tracks boot Sched.boot :=
  ⟨⟨[], [], RawSched.boot_simulates⟩, Sched.boot_wf, fun _ _ hf => by simp [boot] at hf⟩

lemma tracks_of_reach {w : Preemptible} (h : Reach (· = boot) Uninterrupted step w) :
    ∃ s, Tracks w s := by
  refine Reach.invariant (fun w => ∃ s, Tracks w s) ?_ ?_ h
  · rintro w (rfl : w = boot)
    exact ⟨_, boot_tracks⟩
  · rintro w op ⟨s, hs⟩ hop
    obtain ⟨ls, htracks, -⟩ := hs.step hop
    exact ⟨_, htracks⟩

section
variable {w : Preemptible} {s : Sched}

/-- The answers of a round of `waitpid` for `-1` or a pid, in terms of the children there are. -/
structure Answers (w : Preemptible) (pidArg : Int) (options : Nat) : Prop where
  echild : (w.sched.schedWaitpid pidArg options).1 = .returned (-1) ↔ ∀ t, ¬ w.Child pidArg t
  pending : options &&& Queue.wnohang ≠ 0 →
    ((w.sched.schedWaitpid pidArg options).1 = .returned 0 ↔
      (∃ t, w.Child pidArg t) ∧ ∀ t, w.Child pidArg t → ¬ t.Terminated)
  blocking : options &&& Queue.wnohang = 0 → ∀ r,
    (w.sched.schedWaitpid pidArg options).1 = .returned r → r = -1
  collected : ∀ pid status, (w.sched.schedWaitpid pidArg options).1 = .collected pid status →
    ∃ t, w.Child pidArg t ∧ t.Terminated ∧ t.pid = pid ∧ status = Queue.waitStatus t.exitCode
  ready : (∃ t, w.Child pidArg t ∧ t.Terminated) →
    ∃ pid status, (w.sched.schedWaitpid pidArg options).1 = .collected pid status

section
variable (h : Tracks w s)
include h

lemma Tracks.answers (hpid : -1 ≤ pidArg) (options : Nat) : w.Answers pidArg options := by
  have hround := h.round_eq pidArg options
  rcases Queue.waitpid_result h.wf.queue h.wf.runs hpid options with
      ⟨c, hc, hterm, hr⟩ | ⟨hno, hr⟩ | ⟨⟨c, hc⟩, hnone, ⟨hopt, hr⟩ | ⟨hopt, hr⟩⟩
  all_goals
    rw [hr] at hround
    simp only [RawSched.WaitResult.ofRound] at hround
  · refine ⟨?_, ?_, ?_, ?_, ?_⟩ <;> simp only [hround]
    · exact ⟨nofun, fun hall => absurd (h.child_iff.mpr hc) (hall c)⟩
    · exact fun _ => ⟨nofun, fun hall => absurd hterm (hall.2 c (h.child_iff.mpr hc))⟩
    · exact nofun
    · rintro pid status he
      cases he
      exact ⟨c, h.child_iff.mpr hc, hterm, rfl, rfl⟩
    · exact fun _ => ⟨_, _, rfl⟩
  · have hno' : ∀ t, ¬ w.Child pidArg t := fun t ht => hno t (h.child_iff.mp ht)
    refine ⟨?_, ?_, ?_, ?_, ?_⟩ <;> simp only [hround]
    · exact ⟨fun _ => hno', fun _ => trivial⟩
    · exact fun _ => ⟨nofun, fun ⟨⟨t, ht⟩, _⟩ => absurd ht (hno' t)⟩
    · rintro _ r he
      cases he
      rfl
    · exact nofun
    · exact fun ⟨t, ht, _⟩ => absurd ht (hno' t)
  all_goals
    have hc' := h.child_iff.mpr hc
    have hnone' : ∀ t, w.Child pidArg t → ¬ t.Terminated := fun t ht => hnone t (h.child_iff.mp ht)
    refine ⟨?_, ?_, ?_, ?_, ?_⟩ <;> simp only [hround]
  · exact ⟨nofun, fun hall => absurd hc' (hall c)⟩
  · exact fun _ => ⟨fun _ => ⟨⟨c, hc'⟩, hnone'⟩, fun _ => trivial⟩
  · exact fun h0 => absurd h0 hopt
  · exact nofun
  · exact fun ⟨t, ht, hterm⟩ => absurd hterm (hnone' t ht)
  · exact ⟨nofun, fun hall => absurd hc' (hall c)⟩
  · exact fun h0 => absurd hopt h0
  · exact nofun
  · exact nofun
  · exact fun ⟨t, ht, hterm⟩ => absurd hterm (hnone' t ht)

/-- A step that returns a child's pid is one of a `waitpid` of the parent that asked for it. -/
lemma Tracks.collector {pid status : Nat} (hans : w.answer op = some (.collected pid status)) :
    ∃ pidArg t, w.asked op = some pidArg ∧ w.Child pidArg t ∧ t.Terminated ∧ t.pid = pid := by
  have hof : ∀ pidArg options, -1 ≤ pidArg →
      (w.sched.schedWaitpid pidArg options).1 = .collected pid status →
      ∃ t, w.Child pidArg t ∧ t.Terminated ∧ t.pid = pid := by
    intro pidArg options hpid hr
    obtain ⟨t, hc, hterm, hp, -⟩ := (h.answers hpid options).collected pid status hr
    exact ⟨t, hc, hterm, hp⟩
  cases op with
  | scan pidArg options =>
    simp only [answer] at hans
    split at hans
    · cases hans
    have hr := Option.some.inj hans
    have hpid : -1 ≤ pidArg := by
      by_contra hneg
      rw [RawSched.schedWaitpid, if_pos (by omega)] at hr
      cases hr
    obtain ⟨t, ht⟩ := hof pidArg options hpid hr
    exact ⟨pidArg, t, rfl, ht⟩
  | unlink =>
    obtain ⟨f, hf, he⟩ := Option.map_eq_some_iff.mp hans
    obtain ⟨hpid, hround⟩ := h.round_of_found hf
    obtain ⟨t, ht⟩ := hof f.pidArg 0 hpid (by rw [hround, he])
    exact ⟨f.pidArg, t, by simp [asked, hf], ht⟩
  | other op => cases hans

section
variable (hops : Obeys Uninterrupted Preemptible.step w ops)
include hops

/-- The records of the children of a living task over an uninterrupted run. -/
lemma Tracks.children
    (hp : parent ≠ 0) (hlives : ∀ part, part <+: ops → (part.foldl Preemptible.step w).Lives parent)
    (ht : t ∈ w.tasks) (hppid : t.ppid = parent) :
    w.collections ops t.pid = 0 ∧ (∃ t' ∈ (ops.foldl Preemptible.step w).tasks, t'.pid = t.pid ∧
        t'.ppid = parent ∧ (t.Terminated → t' = t)) ∨
      w.collections ops t.pid = 1 ∧ ∀ t' ∈ (ops.foldl Preemptible.step w).tasks, t'.pid ≠ t.pid := by
  obtain ⟨ls, htracks, hobeys, hcount, hparts⟩ := h.run hops
  have halive : ∀ part, part <+: ls → (part.foldl Sched.step s).queue.Alive parent := by
    intro part hpart
    obtain ⟨part', hpre, -, htr⟩ := hparts part hpart
    exact htr.lives_iff.mp (hlives part' hpre)
  have ht' := h.mem_tasks.mp ht
  rw [← hcount]
  rcases Sched.child_collected_once h.wf hobeys hp halive ht' hppid with
      ⟨h0, t', hmem, hpid', hppid', hdead⟩ | ⟨h1, hno⟩
  · refine .inl ⟨h0, t', htracks.mem_tasks.mpr hmem, hpid', hppid'.trans hppid, fun hterm => ?_⟩
    exact (hdead ((h.wf.queue.terminated_iff h.wf.runs ht').mp hterm)).1
  · refine .inr ⟨h1, fun t' hmem he => hno ?_⟩
    exact he ▸ mem_map_of_mem (htracks.mem_tasks.mp hmem)

/-- A `waitpid` that has blocked finds its child again when it runs the next time. -/
lemma Tracks.resumes
    (hp : parent ≠ 0) (hlives : ∀ part, part <+: ops → (part.foldl Preemptible.step w).Lives parent)
    (haway : ∀ part, part <+: ops → part ≠ ops → (part.foldl Preemptible.step w).cur.pid ≠ parent)
    (hback : (ops.foldl Preemptible.step w).cur.pid = parent) (hpid : -1 ≤ pidArg)
    (hchild : ∃ t ∈ w.tasks, t.pid ≠ parent ∧ t.ppid = parent ∧ (pidArg = -1 ∨ pidArg = t.pid))
    (options : Nat) :
    ((ops.foldl Preemptible.step w).sched.schedWaitpid pidArg options).1 ≠ .returned (-1) := by
  obtain ⟨t, ht, hne, hppid, hmatch⟩ := hchild
  obtain ⟨ls, htracks, hobeys, -, hparts⟩ := h.run hops
  have halive : ∀ part, part <+: ls → (part.foldl Sched.step s).queue.Alive parent := by
    intro part hpart
    obtain ⟨part', hpre, -, htr⟩ := hparts part hpart
    exact htr.lives_iff.mp (hlives part' hpre)
  have haway' : ∀ part, part <+: ls → part ≠ ls → (part.foldl Sched.step s).queue.cur.pid ≠ parent := by
    intro part hpart hstrict
    obtain ⟨part', hpre, hstrict', htr⟩ := hparts part hpart
    rw [← htr.cur_eq]
    exact haway part' hpre (hstrict' hstrict)
  obtain ⟨t', ht', hpid', hppid'⟩ :=
    Sched.child_stays h.wf hobeys hp halive haway' (h.mem_tasks.mp ht) hppid
  intro hr
  refine ((htracks.answers hpid options).echild.mp hr) t' ⟨htracks.mem_tasks.mpr ht', ?_, ?_, ?_⟩
  · rw [hback, hpid']
    exact hne
  · rw [hppid', hback]
  · rw [hpid']
    exact hmatch

end

/-- A child that exits or is killed while its parent lives waits for the parent. -/
lemma Tracks.dies {op : RawOp} (hop : w.Uninterrupted (.other op))
    (hp : parent ≠ 0) (hlives : w.Lives parent) (ht : t ∈ w.tasks) (hppid : t.ppid = parent)
    (hdies : (∃ code, op = .exit code) ∧ t = w.cur ∨
      op = .kill t.pid ∧ (w.sched.schedKillTask t.pid).1 = 0) :
    ∃ t' ∈ (w.step (.other op)).tasks, t'.pid = t.pid ∧ t'.ppid = parent ∧ t'.Terminated := by
  obtain ⟨ring, dead, hsim⟩ := h.sim
  have hmoves := RawSched.step_moves hsim h.wf hop.1.1
  have halive := h.lives_iff.mp hlives
  have ht' := h.mem_tasks.mp ht
  -- the step is an exit or a kill on the lists, which leaves a zombie
  obtain ⟨o, hlist, hallowed, code, z, hz, hzpid, hzppid, -⟩ : ∃ o, RawSched.listOps op = [o] ∧
      s.Allowed o ∧ ∃ code, (s.step o).queue.HasZombie parent t.pid code := by
    rcases hdies with ⟨⟨code, rfl⟩, rfl⟩ | ⟨rfl, hkill⟩
    · refine ⟨.exit code, rfl, hmoves.obeys.1, code, ?_⟩
      rw [h.cur_eq] at hppid ⊢
      exact Queue.taskExit_zombie h.wf.queue hmoves.obeys.1 hp halive hppid code
    refine ⟨.kill t.pid, rfl, trivial, ?_⟩
    have hwf : (w.sched.queue ring dead).Wf s.nextPid := hsim.queue ▸ h.wf.queue
    obtain ⟨-, hret⟩ := hsim.repr.schedKillTask hwf t.pid
    rw [← hsim.queue] at hret
    exact Sched.killTask_zombie h.wf (hret.symm.trans hkill) hp halive ht' rfl hppid
  have hwf' := Sched.step_wf h.wf hallowed
  obtain ⟨ring', dead', hsim'⟩ := hmoves.sim
  rw [hlist] at hsim'
  have hmem : z ∈ (s.step o).queue.all := mem_append_right _ hz
  refine ⟨z, ?_, hzpid, hzppid, hwf'.queue.dead z hz⟩
  have hq : (s.step o).queue = (w.sched.step op).queue ring' dead' := hsim'.queue
  rw [hq, RawSched.queue_all] at hmem
  exact (hsim'.repr.live.map _).mem_iff.mpr hmem

end

/-- What `waitpid` and the scheduler owe a parent and its children. -/
structure Correct (w : Preemptible) : Prop where
  /-- A round answers by the children there are. -/
  answers : ∀ pidArg options, -1 ≤ pidArg → w.Answers pidArg options
  /-- A child's pid is returned to a parent that asked for it. -/
  collector : ∀ op pid status, w.answer op = some (.collected pid status) →
    ∃ pidArg t, w.asked op = some pidArg ∧ w.Child pidArg t ∧ t.Terminated ∧ t.pid = pid
  /-- A child that dies while its parent lives waits for the parent. -/
  dies : ∀ op parent t, w.Uninterrupted (.other op) → parent ≠ 0 → w.Lives parent → t ∈ w.tasks →
    t.ppid = parent → ((∃ code, op = .exit code) ∧ t = w.cur ∨
      op = .kill t.pid ∧ (w.sched.schedKillTask t.pid).1 = 0) →
    ∃ t' ∈ (w.step (.other op)).tasks, t'.pid = t.pid ∧ t'.ppid = parent ∧ t'.Terminated
  /-- As long as the parent lives, a child is there and was not returned, or was returned once and is
  gone; a child that has terminated does not change until then. -/
  once : ∀ ops parent t, Obeys Uninterrupted step w ops → parent ≠ 0 →
    (∀ part, part <+: ops → (part.foldl step w).Lives parent) → t ∈ w.tasks → t.ppid = parent →
    w.collections ops t.pid = 0 ∧ (∃ t' ∈ (ops.foldl step w).tasks, t'.pid = t.pid ∧
        t'.ppid = parent ∧ (t.Terminated → t' = t)) ∨
      w.collections ops t.pid = 1 ∧ ∀ t' ∈ (ops.foldl step w).tasks, t'.pid ≠ t.pid
  /-- A call that has blocked is not answered `-1` when the caller runs again. -/
  resumes : ∀ ops pidArg options, (w.sched.schedWaitpid pidArg options).1 = .blocked →
    -1 ≤ pidArg → w.cur.pid ≠ 0 → Obeys Uninterrupted step w (.scan pidArg options :: ops) →
    (∀ part, part <+: ops →
      (part.foldl step (w.step (.scan pidArg options))).Lives w.cur.pid) →
    (∀ part, part <+: ops → part ≠ ops →
      (part.foldl step (w.step (.scan pidArg options))).cur.pid ≠ w.cur.pid) →
    (ops.foldl step (w.step (.scan pidArg options))).cur.pid = w.cur.pid →
    ((ops.foldl step (w.step (.scan pidArg options))).sched.schedWaitpid pidArg options).1 ≠
      .returned (-1)

end
end Preemptible
end FermiOs
