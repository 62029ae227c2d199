import FermiOs.Sched.Wait

/-!
# Parents that still exist

A task that has exited stays on the dead list for the parent its `ppid` names. Nobody can collect it
once that parent is gone, so whoever frees a task has to orphan its children first. `sched_reap` does
that for the tasks it frees, as far as it reaches the dead list in the middle of its own pass;
`sched_waitpid` does not. The two conditions under which nothing is forgotten are stated as a guard
on the runs.
-/

namespace FermiOs
open Library List

namespace Queue

/-- Every parent that is named exists. -/
def Parented (q : Queue) : Prop := ∀ t ∈ q.all, t.ppid ≠ 0 → ∃ p ∈ q.all, p.pid = t.ppid

/-- Until `sched_reap` keeps its first entry, `sched_orphan_children` reaches none of the dead list:
the entries it frees up to there must have no child further down. -/
def ReapCovers (q : Queue) : Prop :=
  ∀ before c after, q.dead = before ++ c :: after → (∀ x ∈ before, x.ppid = 0) → c.ppid = 0 →
    ∀ y ∈ after, y.ppid ≠ 0 → y.ppid ≠ c.pid

variable {bound : Nat} {q q' : Queue}

lemma orphan_ppid_ne (pid : Nat) (t : Task) (h : (orphan pid t).ppid ≠ 0) :
    (orphan pid t).ppid ≠ pid := by
  unfold orphan at h ⊢
  split_ifs at h with hno
  · exact absurd rfl h
  · rw [if_neg hno]
    intro he
    exact hno ⟨he ▸ h, he⟩

lemma OrphanedBy.ppid_eq {gone : List Nat} {t t' : Task} (h : OrphanedBy gone t t')
    (hne : t'.ppid ≠ 0) : t' = t := by
  rcases h with rfl | ⟨-, -, rfl⟩
  · rfl
  · exact absurd rfl hne

/-- The pass leaves no task behind that names a task it freed. -/
lemma reapLoop_parents (n : Nat) (q : Queue) (todo : List Task) (hn : todo.length ≤ n)
    (hcovers : q.dead = [] → ReapCovers { q with dead := todo }) :
    ∀ t ∈ (reapLoop n q todo).1.all, t.ppid ≠ 0 → t.ppid ∉ (reapLoop n q todo).2.map Task.pid := by
  induction n generalizing q todo with
  | zero => simp [reapLoop]
  | succ n ih =>
    cases todo with
    | nil => simp [reapLoop]
    | cons c todo =>
      have hn : todo.length ≤ n := Nat.le_of_succ_le_succ hn
      rw [reapLoop]
      split
      · exact ih _ todo hn fun hd => absurd hd (by simp)
      rename_i hppid
      have hc0 : c.ppid = 0 := not_not.mp hppid
      dsimp only
      generalize htodo : (if q.dead.isEmpty then todo else todo.map (orphan c.pid)) = todo'
      have hlen : todo'.length ≤ n := by
        rw [← htodo]
        split <;> simpa using hn
      have hcov : q.dead.map (orphan c.pid) = [] → ReapCovers
          ⟨orphan c.pid q.cur, q.rest.map (orphan c.pid), todo'⟩ := by
        intro hd
        have hd0 : q.dead = [] := map_eq_nil_iff.mp hd
        rw [hd0] at htodo
        subst htodo
        intro before x after hsplit hbefore hx
        refine hcovers hd0 (c :: before) x after ?_ ?_ hx
        · exact congrArg (c :: ·) hsplit
        · exact forall_mem_cons.mpr ⟨hc0, hbefore⟩
      -- what the pass starts from here names `c` nowhere
      have hstart : ∀ t ∈ Queue.all ⟨orphan c.pid q.cur, q.rest.map (orphan c.pid),
          q.dead.map (orphan c.pid) ++ todo'⟩, t.ppid ≠ 0 → t.ppid ≠ c.pid := by
        intro t ht hne
        rcases mem_all.mp ht with rfl | ht | ht
        · exact orphan_ppid_ne _ _ hne
        · obtain ⟨x, -, rfl⟩ := mem_map.mp ht
          exact orphan_ppid_ne _ _ hne
        rcases mem_append.mp ht with ht | ht
        · obtain ⟨x, -, rfl⟩ := mem_map.mp ht
          exact orphan_ppid_ne _ _ hne
        rw [← htodo] at ht
        split_ifs at ht with hempty
        · exact hcovers (isEmpty_iff.mp hempty) [] c todo rfl (by simp) hc0 t ht hne
        · obtain ⟨x, -, rfl⟩ := mem_map.mp ht
          exact orphan_ppid_ne _ _ hne
      have hloop := ih ⟨orphan c.pid q.cur, q.rest.map (orphan c.pid),
        q.dead.map (orphan c.pid)⟩ todo' hlen hcov
      have hto := reapLoop_reapedTo n ⟨orphan c.pid q.cur, q.rest.map (orphan c.pid),
        q.dead.map (orphan c.pid)⟩ todo' hlen
      intro t ht hne hm
      rcases mem_cons.mp hm with he | hm
      · obtain ⟨x, hx, ho⟩ := hto.of_mem ht
        exact hstart t (OrphanedBy.ppid_eq ho hne ▸ hx) hne he
      · exact hloop t ht hne hm

variable (h : q.Parented)
include h

lemma Parented.reap (hcovers : q.ReapCovers) : q.reap.1.Parented := by
  have hr := q.reap_reapedTo
  intro t ht hne
  obtain ⟨x, hx, ho⟩ := hr.of_mem ht
  obtain ⟨p, hp, hpid⟩ := h t (OrphanedBy.ppid_eq ho hne ▸ hx) hne
  have hnot := reapLoop_parents q.dead.length { q with dead := [] } q.dead le_rfl
    (fun _ => hcovers) t ht hne
  have hmem : t.ppid ∈ q.reap.1.all.map Task.pid ++ q.reap.2.map Task.pid :=
    hr.pids.mem_iff.mpr (hpid ▸ mem_map_of_mem hp)
  obtain ⟨p', hp', he⟩ := mem_map.mp ((mem_append.mp hmem).resolve_right hnot)
  exact ⟨p', hp', he⟩

/-- Records that keep their pids and name no new parent. -/
lemma Parented.of_records (hpids : q.all.map Task.pid ⊆ q'.all.map Task.pid)
    (hppids : ∀ t' ∈ q'.all, ∃ t ∈ q.all, t.ppid = t'.ppid) : q'.Parented := by
  intro t' ht' hne
  obtain ⟨t, ht, he⟩ := hppids t' ht'
  obtain ⟨p, hp, hpid⟩ := h t ht (he ▸ hne)
  obtain ⟨p', hp', he'⟩ := mem_map.mp (hpids (mem_map_of_mem hp))
  exact ⟨p', hp', by rw [he', hpid, he]⟩

lemma Parented.switchTo {before after : List Task} {next : Task}
    (hsplit : q.rest = before ++ next :: after) : (q.switchTo before next after).Parented := by
  refine h.of_records (switchTo_pids hsplit).symm.subset ?_
  have hmem : ∀ t, t = q.cur ∨ t = next ∨ t ∈ before ∨ t ∈ after ∨ t ∈ q.dead → t ∈ q.all := by
    simp only [all, ring, hsplit, mem_append, mem_cons]
    tauto
  intro t' ht'
  rw [switchTo_eq] at ht'
  split at ht' <;>
    simp only [all, ring, mem_append, mem_cons] at ht' <;>
    rcases ht' with (rfl | ht') | ht'
  · exact ⟨next, hmem next (by simp), rfl⟩
  · exact ⟨t', hmem t' (by tauto), rfl⟩
  · rcases ht' with rfl | ht'
    · exact ⟨q.cur, hmem q.cur (by simp), rfl⟩
    · exact ⟨t', hmem t' (by tauto), rfl⟩
  · exact ⟨next, hmem next (by simp), rfl⟩
  · rcases ht' with ht' | rfl | ht'
    · exact ⟨t', hmem t' (by tauto), rfl⟩
    · exact ⟨q.cur, hmem q.cur (by simp), (parked_ppid _).symm⟩
    · exact ⟨t', hmem t' (by tauto), rfl⟩
  · exact ⟨t', hmem t' (by tauto), rfl⟩

lemma Parented.schedule (hcovers : q.ReapCovers) : q.schedule.1.Parented := by
  rcases q.schedule_cases with ⟨-, heq⟩ | ⟨before, next, after, hsome, heq⟩
  · rw [heq]
    exact h.reap hcovers
  · rw [heq]
    exact (h.reap hcovers).switchTo (pick_eq_some hsome).1

/-- The current task rewrites its own record, but not its pid and its parent. -/
lemma Parented.setCur {c : Task} (hpid : c.pid = q.cur.pid)
    (hppid : c.ppid = q.cur.ppid) : Parented { q with cur := c } := by
  refine h.of_records (fun _ hm => by simpa [all, ring, hpid] using hm) fun t' ht' => ?_
  rcases mem_all.mp ht' with rfl | hm
  · exact ⟨q.cur, mem_all.mpr (.inl rfl), hppid.symm⟩
  · exact ⟨t', mem_all.mpr (.inr hm), rfl⟩

lemma Parented.insert {pid ppid : Nat} (hppid : ppid = 0 ∨ ppid = q.cur.pid)
    (t : Task) : (q.insert (freshTask pid ppid t)).Parented := by
  have hmem : ∀ x ∈ q.all, x ∈ (q.insert (freshTask pid ppid t)).all := by
    intro x hx
    simp only [all, ring, Queue.insert, mem_append, mem_cons] at hx ⊢
    tauto
  intro t' ht' hne
  have hcases : t' ∈ q.all ∨ t' = freshTask pid ppid t := by
    simp only [all, ring, Queue.insert, mem_append, mem_cons, not_mem_nil, or_false] at ht' ⊢
    tauto
  rcases hcases with hold | rfl
  · obtain ⟨p, hp, he⟩ := h t' hold hne
    exact ⟨p, hmem p hp, he⟩
  · rcases hppid with rfl | rfl
    · exact absurd rfl hne
    · exact ⟨q.cur, hmem _ (mem_all.mpr (.inl rfl)), rfl⟩

end Queue

namespace Sched

/-- The operation forgets no child: a `waitpid` collects a task without children, and a pass of
`sched_reap` meets every child of what it frees. -/
def Tidy (s : Sched) : SchedOp → Prop
  | .waitpid pidArg options =>
    match (s.queue.waitpid pidArg options).1 with
    | .collected c _ => ∀ t ∈ s.queue.all, t.ppid ≠ 0 → t.ppid ≠ c.pid
    | .blocked _ => s.queue.ReapCovers
    | .returned _ => True
  | .kill pid => s.queue.cur.pid = pid → s.queue.ReapCovers
  | .schedule => s.queue.ReapCovers
  | .exit _ => s.queue.ReapCovers
  | .sleep _ => s.queue.ReapCovers
  | .reap => s.queue.ReapCovers
  | _ => True

variable {op : SchedOp} {s : Sched}

lemma Tidy.covers (htidy : s.Tidy op) (hcalls : s.callsOf op = 1) : s.queue.ReapCovers := by
  cases op with
  | schedule => exact htidy
  | exit code => exact htidy
  | sleep ms => exact htidy
  | kill pid =>
    rw [callsOf] at hcalls
    split at hcalls
    · rename_i hself
      exact htidy hself.2.1
    · cases hcalls
  | waitpid pidArg options =>
    rw [callsOf] at hcalls
    rw [Tidy] at htidy
    split at hcalls
    · rename_i hblocked
      rwa [hblocked] at htidy
    · cases hcalls
  | _ => cases hcalls

lemma step_parented (hwf : s.Wf) (ha : s.Allowed op) (h : s.queue.Parented) (htidy : s.Tidy op) :
    (s.step op).queue.Parented := by
  have hm := step_move hwf ha
  generalize s.step op = s' at hm ⊢
  cases hm with
  | skip => exact h
  | enter ppid t hppid => exact h.insert hppid t
  | yield c hpid hppid _ _ hcalls => exact (h.setCur hpid hppid).schedule (htidy.covers hcalls)
  | bury before after c hsplit =>
    refine h.of_records (fun x hx => ?_) fun t' ht' => ?_
    · simp only [Queue.all, Queue.ring, hsplit, map_append, map_cons, mem_append,
        mem_cons, Queue.bury] at hx ⊢
      tauto
    by_cases hc : t' = { Queue.bury c with exitCode := -1 }
    · exact ⟨c, by simp [Queue.all, Queue.ring, hsplit], by rw [hc]; rfl⟩
    · refine ⟨t', ?_, rfl⟩
      simp only [Queue.all, Queue.ring, hsplit, mem_append, mem_cons] at ht' ⊢
      tauto
  | collect before after c hsplit _ _ hcol =>
    have hother : ∀ t ∈ s.queue.all, t.ppid ≠ 0 → t.ppid ≠ c.pid := by
      rw [collected] at hcol
      rw [Tidy] at htidy
      split at hcol
      · rename_i hc
        rw [hc] at htidy
        cases hcol
        exact htidy
      · cases hcol
    intro t ht hne
    have hold : t ∈ s.queue.all := by
      simp only [Queue.all, Queue.ring, hsplit, mem_append, mem_cons] at ht ⊢
      tauto
    obtain ⟨p, hp, hpid⟩ := h t hold hne
    refine ⟨p, ?_, hpid⟩
    have hpc : p ≠ c := fun he => hother t hold hne (by rw [← hpid, he])
    simp only [Queue.all, Queue.ring, hsplit, mem_append, mem_cons] at hp ⊢
    tauto
  | tick =>
    refine h.of_records (fun x hx => ?_) fun t' ht' => ?_
    · simpa [Queue.wakeSleepers, Queue.all, Queue.ring, Queue.wake_pid, Function.comp_def] using hx
    rcases Queue.mem_all.mp ht' with rfl | hm | hm
    · exact ⟨s.queue.cur, Queue.mem_all.mpr (.inl rfl), (Queue.wake_ppid _ _).symm⟩
    · obtain ⟨x, hx, rfl⟩ := mem_map.mp hm
      exact ⟨x, Queue.mem_all.mpr (.inr (.inl hx)), (Queue.wake_ppid _ _).symm⟩
    · exact ⟨t', Queue.mem_all.mpr (.inr (.inr hm)), rfl⟩
  | reap => exact h.reap htidy

/-- **Named parents exist.** In every state of every run in which `waitpid` collects only tasks
without children and the passes of `sched_reap` meet the children of what they free, a task whose
`ppid` is not zero names a task that exists. -/
theorem named_parents_exist {s : Sched}
    (h : Reach (· = boot) (fun s op => s.Allowed op ∧ s.Tidy op) step s) :
    ∀ t ∈ s.queue.ring ++ s.queue.dead, t.ppid ≠ 0 →
      ∃ p ∈ s.queue.ring ++ s.queue.dead, p.pid = t.ppid := by
  refine (Reach.invariant (fun s => s.Wf ∧ s.queue.Parented) ?_ ?_ h).2
  · rintro s (rfl : s = boot)
    refine ⟨boot_wf, fun t ht hne => ?_⟩
    simp only [boot, Queue.all, Queue.ring, append_nil, mem_singleton] at ht
    subst ht
    exact absurd rfl hne
  · exact fun s op hs hop => ⟨step_wf hs.1 hop.1, step_parented hs.1 hop.1 hs.2 hop.2⟩

/-- A task, its child and its grandchild; the child exits and is collected. -/
def grandchildRun : List SchedOp :=
  [.create idleTask, .schedule, .fork idleTask true, .schedule, .fork idleTask true, .exit 0,
    .waitpid (-1) 0, .schedule]

/-- After the last pass the grandchild names a parent that no longer exists. -/
theorem grandchild_names_freed_parent : Obeys Allowed step boot grandchildRun ∧
      (grandchildRun.foldl step boot).queue.cur.ppid = 2 ∧
      ∀ p ∈ (grandchildRun.foldl step boot).queue.ring ++ (grandchildRun.foldl step boot).queue.dead,
        p.pid ≠ 2 := by
  refine ⟨by decide +kernel, by decide +kernel, ?_⟩
  have hpids : ((grandchildRun.foldl step boot).queue.ring ++
      (grandchildRun.foldl step boot).queue.dead).map Task.pid = [3, 1, 0] := by decide +kernel
  intro p hp he
  have hmem : p.pid ∈ [3, 1, 0] := hpids ▸ mem_map_of_mem hp
  rw [he] at hmem
  exact absurd hmem (by decide)

/-- A task, its child and the exit of the child, before it is collected. -/
def exitedChildRun : List SchedOp :=
  [.create idleTask, .schedule, .fork idleTask true, .schedule, .exit 0]

theorem named_parents_exist_family :
    ∃ s, s = exitedChildRun.foldl step boot ∧ (∃ t ∈ s.queue.dead, t.ppid ≠ 0) ∧
      ∀ t ∈ s.queue.ring ++ s.queue.dead, t.ppid ≠ 0 →
        ∃ p ∈ s.queue.ring ++ s.queue.dead, p.pid = t.ppid := by
  have hboot : Reach (· = boot) (fun s op => s.Allowed op ∧ s.Tidy op) step boot := .start rfl
  have hempty : ∀ q : Queue, q.dead = [] → q.ReapCovers := by
    intro q hq before c after hsplit
    rw [hq] at hsplit
    exact absurd hsplit (by simp)
  refine ⟨_, rfl, by decide +kernel, ?_⟩
  exact named_parents_exist (hboot.obeys ⟨⟨trivial, trivial⟩, ⟨trivial, hempty _ rfl⟩,
    ⟨trivial, trivial⟩, ⟨trivial, hempty _ rfl⟩, ⟨by decide +kernel, hempty _ rfl⟩, trivial⟩)

end Sched
end FermiOs
