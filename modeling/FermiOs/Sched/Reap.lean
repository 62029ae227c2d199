import FermiOs.Sched.RingRun

/-!
# One pass of `sched_reap`

The pass rebuilds the dead list while it frees entries of it, and for every entry it frees it walks
the list again, as far as it is linked at that moment. Here a second run of the pass lists what is
done to which record, so that the order of frees and accesses can be stated: the last survivor still
links to the entries freed behind it, and the next walk goes through them.
-/

namespace FermiOs
open Library List

/-- What the pass does to a record: it comes to the record and reads its link and its parent, it reads
or writes it otherwise, or it frees it. -/
inductive ReapEvent
  | visit (p ppid : Nat)
  | touch (p : Nat)
  | free (p : Nat)

namespace ReapEvent

/-- The record. -/
def record : ReapEvent → Nat
  | .visit p _ => p
  | .touch p => p
  | .free p => p

/-- The second event uses the record the first one freed. -/
def usesFreed (e e' : ReapEvent) : Bool :=
  match e with
  | .free p => e'.record == p
  | _ => false

/-- The entries the pass came to, each with the parent it had then. -/
def visits (tr : List ReapEvent) : List (Nat × Nat) :=
  tr.filterMap fun e => match e with
    | .visit p ppid => some (p, ppid)
    | _ => none

/-- The records freed. -/
def freed (tr : List ReapEvent) : List Nat :=
  tr.filterMap fun e => match e with
    | .free p => some p
    | _ => none

/-- No record is used after it was freed. -/
def NoUseAfterFree (tr : List ReapEvent) : Prop := tr.Pairwise fun e e' => e.usesFreed e' = false
deriving Decidable

/-- Accesses in front of a list of events. -/
lemma touches_append (ps : List Nat) (tr : List ReapEvent) :
    visits (ps.map .touch ++ tr) = visits tr ∧ freed (ps.map .touch ++ tr) = freed tr ∧
      (NoUseAfterFree (ps.map .touch ++ tr) ↔ NoUseAfterFree tr) ∧
      ∀ P : Nat → Prop, (∀ e ∈ ps.map ReapEvent.touch ++ tr, P e.record) ↔
        (∀ x ∈ ps, P x) ∧ ∀ e ∈ tr, P e.record := by
  refine ⟨by simp [visits], by simp [freed], ?_, fun P => ?_⟩
  · rw [NoUseAfterFree, pairwise_append, pairwise_map]
    exact ⟨fun h => h.2.1, fun h => ⟨pairwise_of_forall fun _ _ => rfl, h, by simp [usesFreed]⟩⟩
  · rw [forall_mem_append, forall_mem_map]
    rfl

lemma noUseAfterFree_visit (p ppid : Nat) (tr : List ReapEvent) :
    NoUseAfterFree (.visit p ppid :: tr) ↔ NoUseAfterFree tr := by
  simp [NoUseAfterFree, usesFreed]

lemma noUseAfterFree_free (p : Nat) (tr : List ReapEvent) :
    NoUseAfterFree (.free p :: tr) ↔ (∀ e ∈ tr, e.record ≠ p) ∧ NoUseAfterFree tr := by
  simp [NoUseAfterFree, usesFreed]

end ReapEvent

open ReapEvent

namespace RawSched

/-- The records `sched_orphan_children` comes to. -/
def orphanTouches (m : RawSched) (ppid : Nat) : List Nat :=
  if ppid = 0 then []
  else
    let body := fun (l : List Nat) p => l ++ [p]
    sweep m.next (fun d => decide (d = 0)) body m.rounds m.deadList
      (sweep m.next (fun t => decide (t = 0 ∨ t = idlePtr)) body m.rounds (m.next idlePtr)
        (body [] idlePtr))

/-- The loop of `sched_reap`, with what it does to the records. -/
def reapTrace : Nat → RawSched → Nat → Nat → List ReapEvent
  | 0, _, _, _ => []
  | n + 1, m, prev, c =>
    let link := if prev ≠ 0 then [prev] else []
    if c = 0 then link.map .touch
    else
      .visit c (m.task c).ppid ::
        if (m.task c).ppid ≠ 0 then
          link.map .touch ++ reapTrace n (m.keepEntry prev c) c (m.next c)
        else
          (m.orphanTouches (m.task c).pid).map .touch ++ .free c ::
            reapTrace n ((m.schedOrphanChildren (m.task c).pid).schedFreeTask c) prev (m.next c)

/-- The events of `sched_reap`. -/
def schedReapTrace (m : RawSched) : List ReapEvent :=
  reapTrace (m.live.length + 1) { m with deadList := 0 } 0 m.deadList

/-- The pass comes to every entry once and in order; it frees those that have no parent then and
leaves the others on the list, in order; and it uses no record it has freed. -/
structure ReapRight (m : RawSched) (ring dead : List Nat) : Prop where
  visits : (visits m.schedReapTrace).map Prod.fst = dead
  freed : freed m.schedReapTrace =
    ((ReapEvent.visits m.schedReapTrace).filter (·.2 = 0)).map Prod.fst
  kept : Repr m.schedReap ring
    (((ReapEvent.visits m.schedReapTrace).filter (·.2 ≠ 0)).map Prod.fst)
  safe : NoUseAfterFree m.schedReapTrace

/-- After the first survivor (`kept`), no entry without a parent follows directly on another one
(`gap`). An entry has no parent either if the parent is among those freed behind the first survivor
(`gone`). -/
def Spaced : Bool → Bool → List Nat → List Task → Prop
  | _, _, _, [] => True
  | kept, gap, gone, t :: ts =>
    if t.ppid = 0 ∨ t.ppid ∈ gone then
      (gap = true → t.pid = 0) ∧ Spaced kept kept (if kept then t.pid :: gone else gone) ts
    else Spaced true false gone ts

section
variable (gone : List Nat) (t : Task)

/-- A record whose parent is one of `gone`, with the parent forgotten. -/
def orphanAll : Task :=
  if t.ppid ∈ gone then { t with ppid := 0 } else t

lemma orphanAll_ppid : (orphanAll gone t).ppid = 0 ↔ t.ppid = 0 ∨ t.ppid ∈ gone := by
  unfold orphanAll
  split <;> simp_all

lemma orphanAll_pid : (orphanAll gone t).pid = t.pid := by
  unfold orphanAll
  split <;> rfl

end

lemma orphan_orphanAll (pid : Nat) (gone : List Nat) (t : Task) :
    orphan pid (orphanAll gone t) = orphanAll (pid :: gone) t := by
  obtain ⟨_, ppid⟩ := t
  by_cases hgone : ppid ∈ gone <;> by_cases hpid : ppid = pid <;> by_cases h0 : pid = 0 <;>
    simp_all [orphan, orphanAll]

variable {m : RawSched} {prev c : Nat} {ring dead kept gap todo : List Nat}

section
variable (h : Reaping m prev c ring kept gap todo)
include h

/-- **`sched_orphan_children`** comes to every record that is linked, freed ones included. -/
lemma Reaping.mem_orphanTouches (ppid p : Nat) :
    p ∈ m.orphanTouches ppid ↔ ppid ≠ 0 ∧ (p ∈ m.current :: ring ∨
      kept ≠ [] ∧ p ∈ kept ++ (gap ++ todo)) := by
  rw [orphanTouches]
  split_ifs with hne
  · simp [*]
  obtain ⟨ds, hds, hpath, hnd, hnull, hlen, hlen'⟩ := h.reached
  obtain ⟨cells, hperm, hsweep⟩ := orphan_sweeps h.cycle h.idle hpath hnd hnull hlen hlen'
  have hlist : ∀ (l acc : List Nat), l.foldl (fun l p => l ++ [p]) acc = acc ++ l := by
    intro l
    induction l with
    | nil => simp
    | cons x xs ih => simp [ih]
  rw [hsweep, hlist, nil_append, hperm.mem_iff, mem_append]
  rcases hds with ⟨hk, rfl⟩ | ⟨hk, rfl⟩ <;> simp [hne, hk]

/-- What is known about the rest of a pass and its events. -/
structure Traced (m m' : RawSched) (tr : List ReapEvent) (ring kept gap todo : List Nat)
    (spaced : Prop) : Prop where
  within : ∀ e ∈ tr, e.record ∈ m.current :: ring ++ (kept ++ (gap ++ todo))
  visits : (visits tr).map Prod.fst = todo
  freed : freed tr = ((ReapEvent.visits tr).filter (·.2 = 0)).map Prod.fst
  kept : Repr m' ring (kept ++ ((ReapEvent.visits tr).filter (·.2 ≠ 0)).map Prod.fst)
  safe : (NoUseAfterFree tr ∧ ∀ e ∈ tr, e.record ∉ gap) ↔ spaced

/-- The link of the last survivor is written. -/
lemma Reaping.link : ∀ x ∈ (if prev ≠ 0 then [prev] else [] : List Nat), x ∈ kept := by
  rcases h.survivors with ⟨-, -, rfl, -⟩ | ⟨⟨ks, rfl⟩, -⟩
  · simp
  · split <;> simp

lemma Reaping.notMem_gap {x : Nat} (hx : x ∈ m.current :: ring ++ (kept ++ todo)) : x ∉ gap := by
  have hnd := h.nodup
  grind

end

/-- **The pass.** By induction on its rounds, with the state in the middle of the pass and the records
it still comes to as they were at the start. -/
lemma reapTrace_spec (n : Nat) {gone : List Nat} {ts : List Task}
    (h : Reaping m prev c ring kept gap todo) (hn : todo.length < n)
    (hts : todo.map m.task = ts.map (orphanAll gone)) :
    Traced m (reapLoop n m prev c) (reapTrace n m prev c) ring kept gap todo
      (Spaced (!kept.isEmpty) (!gap.isEmpty) gone ts) := by
  induction n generalizing m prev c kept gap todo gone ts with
  | zero => omega
  | succ n ih =>
    have hlink := h.link
    rw [reapTrace, reapLoop]
    dsimp only
    generalize (if prev ≠ 0 then [prev] else [] : List Nat) = link at hlink ⊢
    cases todo with
    | nil =>
      obtain rfl : c = 0 := h.chain
      obtain rfl : ts = [] := map_eq_nil_iff.mp hts.symm
      obtain ⟨hv, hf, hs, hr⟩ := touches_append link []
      rw [append_nil] at hv hf hs hr
      rw [if_pos rfl, if_pos rfl]
      refine ⟨(hr _).mpr ⟨fun x hx => by simp [hlink x hx], by simp⟩, by rw [hv]; rfl,
        by rw [hf, hv]; rfl, by rw [hv]; simpa [visits] using h.finish,
        iff_of_true ⟨hs.mpr .nil, (hr (· ∉ gap)).mpr ⟨fun x hx => ?_, by simp⟩⟩ trivial⟩
      exact h.notMem_gap (by simp [hlink x hx])
    | cons x todo =>
      obtain ⟨rfl, -⟩ := h.chain
      have hc0 : c ≠ 0 := h.ne_zero (by simp)
      have hn : todo.length < n := Nat.lt_of_succ_lt_succ hn
      obtain ⟨t, ts, rfl⟩ := exists_cons_of_ne_nil (l := ts) (by rintro rfl; cases hts)
      obtain ⟨ht, hts⟩ := List.cons.inj hts
      have hcgap : c ∉ gap := h.notMem_gap (by simp)
      have hparent : (m.task c).ppid = 0 ↔ t.ppid = 0 ∨ t.ppid ∈ gone := by
        rw [ht, orphanAll_ppid]
      rw [if_neg hc0, if_neg hc0, Spaced]
      by_cases hppid : (m.task c).ppid = 0
      · -- the entry is freed, after a walk over what is linked
        have hpid : (m.task c).pid = t.pid := by rw [ht, orphanAll_pid]
        have hfree := h.free (m.task c).pid
        obtain ⟨task, hm⟩ := m.schedOrphanChildren_links (m.task c).pid
        have hcur : ((m.schedOrphanChildren (m.task c).pid).schedFreeTask c).current = m.current := by
          rw [hm]
          rfl
        have hts' : todo.map ((m.schedOrphanChildren (m.task c).pid).schedFreeTask c).task =
            ts.map (orphanAll (if !kept.isEmpty then t.pid :: gone else gone)) := by
          refine (h.orphan_todo _).trans ?_
          cases kept with
          | nil => exact hts
          | cons k ks =>
            rw [if_neg (by simp), hts, hpid, map_map]
            exact map_congr_left fun y _ => orphan_orphanAll t.pid gone y
        obtain ⟨hwithin, hvisits, hfreed, hkept, hsafe⟩ := ih hfree hn hts'
        rw [hcur] at hwithin
        have htouch := fun x => h.mem_orphanTouches (m.task c).pid x
        rw [if_neg (not_not.mpr hppid), if_neg (not_not.mpr hppid), if_pos (hparent.mp hppid)]
        generalize reapTrace n _ prev (m.next c) = tr at hwithin hvisits hfreed hkept hsafe ⊢
        generalize m.orphanTouches (m.task c).pid = touches at htouch ⊢
        obtain ⟨hv, hf, hs, hr⟩ := touches_append touches (.free c :: tr)
        have hv' : visits (.visit c (m.task c).ppid :: (touches.map .touch ++ .free c :: tr)) =
            (c, (m.task c).ppid) :: visits tr := congrArg ((c, (m.task c).ppid) :: ·) hv
        have hf' : freed (.visit c (m.task c).ppid :: (touches.map .touch ++ .free c :: tr)) =
            c :: freed tr := hf
        refine ⟨?_, by rw [hv', map_cons, hvisits], ?_, ?_, ?_⟩
        · refine forall_mem_cons.mpr ⟨by simp [record], (hr _).mpr ⟨fun x hx => ?_,
            forall_mem_cons.mpr ⟨by simp [record], fun e he => ?_⟩⟩⟩
          · have hx := ((htouch x).mp hx).2
            grind
          · have he := hwithin e he
            split at he <;> grind
        · rw [hf', hv', filter_cons_of_pos (by simpa using hppid), map_cons, hfreed]
        · rw [hv', filter_cons_of_neg (by simpa using hppid)]
          exact hkept
        rw [noUseAfterFree_visit, hs, noUseAfterFree_free, forall_mem_cons, hr (· ∉ gap),
          forall_mem_cons]
        rcases h.survivors with ⟨rfl, rfl, -, -⟩ | ⟨⟨ks, rfl⟩, -⟩
        · -- nothing is linked behind the ring
          have hgone : ∀ e ∈ tr, e.record ≠ c := by
            intro e he hec
            have hnd := h.nodup
            have he := hwithin e he
            rw [hec] at he
            grind
          have hsafe : NoUseAfterFree tr ↔ Spaced false false gone ts := by simpa using hsafe
          rw [and_iff_right hgone, and_iff_left (by simp), hsafe]
          simp
        · have hne : ks ++ [prev] ≠ [] := by simp
          have htouches : (∀ x ∈ touches, x ∉ gap) ↔ ((!gap.isEmpty) = true → t.pid = 0) := by
            rw [← hpid]
            constructor
            · intro hno hgap
              by_contra h0
              obtain ⟨x, hx⟩ := exists_mem_of_ne_nil gap (by simpa using hgap)
              exact hno x ((htouch x).mpr ⟨h0, .inr ⟨hne, by simp [hx]⟩⟩) hx
            · intro h0 x hx hgap
              exact ((htouch x).mp hx).1 (h0 (by simpa using ne_nil_of_mem hgap))
          have hgap : (gap ++ [c]).isEmpty = false := by simp
          rw [if_neg hne, hgap, isEmpty_eq_false_iff.mpr hne] at hsafe
          rw [htouches, isEmpty_eq_false_iff.mpr hne, ← hsafe]
          simp only [record, hcgap, not_false_eq_true, true_and, mem_append,
            mem_singleton, not_or, imp_and, forall_and]
          tauto
      · -- the entry survives, and what was freed before it is linked no longer
        obtain ⟨links, first, hkeep⟩ := m.keepEntry_links prev c
        have hsur := h.survive
        rw [hkeep] at hsur
        obtain ⟨hwithin, hvisits, hfreed, hkept, hsafe⟩ := ih hsur hn hts
        have hnew : (kept ++ [c]).isEmpty = false := by simp
        rw [if_pos hppid, if_pos hppid, if_neg (mt hparent.mpr hppid), hkeep]
        rw [hnew] at hsafe
        generalize reapTrace n _ c (m.next c) = tr at hwithin hvisits hfreed hkept hsafe ⊢
        obtain ⟨hv, hf, hs, hr⟩ := touches_append link tr
        have hv' : visits (.visit c (m.task c).ppid :: (link.map .touch ++ tr)) =
            (c, (m.task c).ppid) :: visits tr := congrArg ((c, (m.task c).ppid) :: ·) hv
        have hf' : freed (.visit c (m.task c).ppid :: (link.map .touch ++ tr)) = freed tr := hf
        refine ⟨?_, by rw [hv', map_cons, hvisits], ?_, ?_, ?_⟩
        · refine forall_mem_cons.mpr ⟨by simp [record], (hr _).mpr ⟨fun x hx => ?_, fun e he => ?_⟩⟩
          · simp [hlink x hx]
          · have he := hwithin e he
            grind
        · rw [hf', hv', filter_cons_of_neg (by simpa using hppid), hfreed]
        · rw [hv', filter_cons_of_pos (by simpa using hppid)]
          simpa using hkept
        rw [noUseAfterFree_visit, hs, forall_mem_cons, hr (· ∉ gap)]
        have hout : ∀ e ∈ tr, e.record ∉ gap := fun e he => h.notMem_gap (by simpa using hwithin e he)
        have hlinks : ∀ x ∈ link, x ∉ gap := fun x hx => h.notMem_gap (by simp [hlink x hx])
        rw [and_iff_left ⟨hcgap, hlinks, hout⟩]
        simpa using hsafe

/-- **`sched_reap`** frees the entries without a parent, keeps the others in order and uses no record
it freed, exactly when behind the first survivor no two entries without a parent are next to each
other. -/
theorem reap_right_iff (h : Repr m ring dead) :
    ReapRight m ring dead ↔ Spaced false false [] (dead.map m.task) := by
  obtain ⟨hstart, hlen⟩ := h.reaping
  have hts : dead.map m.task = (dead.map m.task).map (orphanAll []) := by simp [orphanAll]
  obtain ⟨-, hvisits, hfreed, hkept, hsafe⟩ := reapTrace_spec _ hstart hlen hts
  rw [and_iff_left (by simp)] at hsafe
  exact ⟨fun hr => hsafe.mp hr.safe, fun hs => ⟨hvisits, hfreed, hkept, hsafe.mpr hs⟩⟩

/-- A zombie and an orphan on the dead list. -/
def zombieAndOrphan : RawSched where
  next := fun p => if p = idlePtr then idlePtr else if p = 2 then 3 else 0
  task := fun p => { idleTask with pid := p - 1, ppid := if p = 2 then 7 else 0, state := .dead }
  current := idlePtr
  deadList := 2
  ticks := 0
  nextPid := 8
  live := [idlePtr, 2, 3]
  frees := []

theorem reap_right_iff_two : ReapRight zombieAndOrphan [] [2, 3] := by
  have hrepr : Repr zombieAndOrphan [] [2, 3] :=
    ⟨⟨rfl, rfl⟩, ⟨rfl, rfl, rfl⟩, by decide, by decide, .refl _, by decide, rfl⟩
  exact (reap_right_iff hrepr).mpr (by simp [Spaced, zombieAndOrphan])

/-- A task kills two tasks without a parent and then its child: the list holds a zombie and two
orphans behind it. -/
def threeKilled : RawSched :=
  [RawOp.create 8 idleTask, .schedule, .fork 9 idleTask true, .create 10 idleTask,
    .create 11 idleTask, .kill 4, .kill 3, .kill 2].foldl step boot

/-- For the second orphan the walk from the zombie goes through the first one, which is freed. -/
theorem reap_uses_freed : threeKilled.Reachable ∧ ∃ ring dead, Repr threeKilled ring dead ∧
      ¬ ReapRight threeKilled ring dead := by
  have hboot : Reach (· = boot) Allowed step boot := .start rfl
  have hreach : threeKilled.Reachable := hboot.obeys (by decide +kernel)
  obtain ⟨⟨s, ring, dead, hsim, -⟩, -⟩ := hreach.inv
  exact ⟨hreach, ring, dead, hsim.repr, fun h => absurd h.safe (by decide +kernel)⟩

end RawSched
end FermiOs
