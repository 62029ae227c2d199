import FermiOs.Sched.Ring

/-!
# The pointers implement the queue

Every operation on the pointers does to the lists they represent what the operation of `Sched.Queue`
does. The scheduler's invariant on pointers follows: the run queue is one cycle with the idle and the
current task on it, the dead list is a chain apart from it, and a record is freed only off the ring.
-/

namespace FermiOs.RawSched
open Library List Function
variable {pid : Nat} {m : RawSched} {ring dead : List Nat} {after before ps : List Nat}
  {bound n next p prev x : Nat}

namespace Repr
variable (h : Repr m ring dead)
include h

lemma disjoint (hx : x ∈ dead) : x ∉ m.current :: ring :=
  fun hr => (nodup_append.mp h.nodup).2.2 x hr x hx rfl

lemma nodup_ring : (m.current :: ring).Nodup :=
  (nodup_append.mp h.nodup).1

lemma ne_zero (hx : x ∈ m.current :: ring ++ dead) : x ≠ 0 :=
  fun h0 => h.null (h0 ▸ hx)

lemma current_notMem : m.current ∉ ring :=
  (nodup_cons.mp h.nodup_ring).1

lemma length_ring : ring.length < m.rounds := by
  have hlen := h.live.length_eq
  simp only [length_append, length_cons] at hlen
  simp only [rounds]
  omega

lemma length_dead : dead.length ≤ m.rounds := by
  have hlen := h.live.length_eq
  simp only [length_append, length_cons] at hlen
  simp only [rounds]
  omega

/-- On the records of the lists, the idle task is the one with pid `0`. -/
lemma pid_eq_zero_iff (hpids : m.PidsDistinct ring dead)
    (hp : p ∈ m.current :: ring ++ dead) : (m.task p).pid = 0 ↔ p = idlePtr := by
  constructor
  · intro h0
    exact inj_on_of_nodup_map hpids hp (mem_append_left _ h.idle)
      (h0.trans h.idlePid.symm)
  · rintro rfl
    exact h.idlePid

/-- Rewriting records, with their pids kept, changes no list. -/
lemma modify (p : Nat) {f : Task → Task} (hf : ∀ t, (f t).pid = t.pid) :
    Repr (m.modify p f) ring dead := by
  refine ⟨h.cycle, h.chain, h.nodup, h.null, h.live, h.idle, ?_⟩
  simp only [RawSched.modify]
  by_cases hp : idlePtr = p
  · subst hp
    rw [update_self, hf, h.idlePid]
  · rw [update_of_ne hp, h.idlePid]

end Repr

lemma queue_modify_current (h : Repr m ring dead) (f : Task → Task) :
    (m.modify m.current f).queue ring dead =
      { m.queue ring dead with cur := f (m.task m.current) } := by
  have hring : ∀ p ∈ ring, update m.task m.current (f (m.task m.current)) p = m.task p :=
    fun p hp => update_of_ne (fun he : p = m.current => h.current_notMem (he ▸ hp)) _ _
  have hdead : ∀ p ∈ dead, update m.task m.current (f (m.task m.current)) p = m.task p :=
    fun p hp => update_of_ne
      (fun he : p = m.current => h.disjoint hp (he ▸ mem_cons_self)) _ _
  simp only [queue, RawSched.modify, update_self]
  rw [map_congr_left hring, map_congr_left hdead]

/-! ## The choice of `schedule` -/

/-- A record `schedule` switches to as soon as it meets it. -/
def readyOther (m : RawSched) (p : Nat) : Bool :=
  decide ((m.task p).state = .ready ∧ p ≠ idlePtr)

/-- The search loop stops at the first ready record other than the idle one. With no such record it
comes back, having seen whether the idle task is ready. -/
lemma pickLoop_spec {fallback : Nat} (h : Path m.next p ps prev) (hprev : prev ∉ ps)
    (hn : ps.length ≤ n) :
    (∀ c, cut m.readyOther ps = some c → (m.pickLoop prev n p fallback).1 = c.2.1) ∧
      (cut m.readyOther ps = none → m.pickLoop prev n p fallback =
        (prev, if fallback = 0 ∧ idlePtr ∈ ps ∧ (m.task idlePtr).state = .ready then idlePtr
          else fallback)) := by
  induction ps generalizing p n fallback with
  | nil =>
    obtain rfl : p = prev := h
    refine ⟨fun _ hc => (by cases hc), fun _ => ?_⟩
    cases n <;> simp [pickLoop]
  | cons y ys ih =>
    obtain ⟨rfl, htail⟩ := h
    rw [mem_cons, not_or] at hprev
    cases n with
    | zero => exact absurd hn (Nat.not_succ_le_zero _)
    | succ n =>
      have hrec := fun fb => @ih n (m.next p) fb htail hprev.2 (Nat.le_of_succ_le_succ hn)
      rw [pickLoop, if_neg fun he => hprev.1 he.symm, cut]
      by_cases hready : (m.task p).state = .ready
      · rw [if_pos hready]
        by_cases hidle : p = idlePtr
        · -- the idle task is remembered
          obtain ⟨hsome, hnone⟩ := hrec (if fallback = 0 then p else fallback)
          rw [if_pos hidle, if_neg fun htest => (of_decide_eq_true htest).2 hidle]
          refine ⟨fun c hc => ?_, fun hc => ?_⟩
          · obtain ⟨c', hc', rfl⟩ := Option.map_eq_some_iff.mp hc
            exact hsome c' hc'
          · rw [hnone (Option.map_eq_none_iff.mp hc)]
            subst hidle
            have hne : idlePtr ≠ 0 := by decide
            by_cases hf : fallback = 0 <;> simp [hf, hready, hne]
        · have htest : m.readyOther p = true := decide_eq_true ⟨hready, hidle⟩
          rw [if_neg hidle, if_pos htest]
          refine ⟨fun c hc => ?_, fun hc => by cases hc⟩
          cases hc
          rfl
      obtain ⟨hsome, hnone⟩ := hrec fallback
      rw [if_neg hready, if_neg fun htest => hready (of_decide_eq_true htest).1]
      refine ⟨fun c hc => ?_, fun hc => ?_⟩
      · obtain ⟨c', hc', rfl⟩ := Option.map_eq_some_iff.mp hc
        exact hsome c' hc'
      rw [hnone (Option.map_eq_none_iff.mp hc)]
      by_cases hidle : p = idlePtr
      · subst hidle
        simp [hready]
      · simp only [mem_cons, Ne.symm hidle, false_or]

/-! ## The switch -/

/-- Contents of cells that none of two updates touches. -/
lemma map_update_of_notMem {l : List Nat} {f : Nat → Task} {t : Task} (hp : p ∉ l) :
    l.map (update f p t) = l.map f :=
  map_congr_left fun q hq => update_of_ne (fun he : q = p => hp (he ▸ hq)) _ _

/-- The record at `prev` unlinked from the ring and pushed on the dead list. -/
lemma unlink_links {next : Nat → Nat} {deadList l : Nat}
    (hcycle : Path next prev (prev :: (ps ++ [l])) prev) (hchain : Path next deadList dead 0)
    (hnd : (prev :: (ps ++ [l]) ++ dead).Nodup) (hn : ps.length < n) :
    walk next (fun q => decide (next q = prev)) n prev = l ∧
      Path (update (update next l (next prev)) prev deadList) (next prev)
        (ps ++ [l]) (next prev) ∧
      Path (update (update next l (next prev)) prev deadList) prev (prev :: dead) 0 := by
  obtain ⟨hndr, -, hdisj⟩ := nodup_append.mp hnd
  obtain ⟨hprev, hndp⟩ := nodup_cons.mp hndr
  have hring : Path next prev ((prev :: ps) ++ [l]) prev := hcycle
  refine ⟨walk_predecessor hring hndr hn, (hcycle.unlink hndp).update hprev, rfl, ?_⟩
  rw [update_self]
  refine (hchain.update fun hm => ?_).update fun hm => ?_
  · exact hdisj l (by simp) l hm rfl
  · exact hdisj prev (by simp) prev hm rfl

/-- The switch away from a task that can run on. -/
lemma switchTo_alive (hdead : (m.task m.current).state ≠ .dead) (hne : m.current ≠ next) :
    m.switchTo next = { m with
      task := update (update m.task m.current (Queue.parked (m.task m.current)))
        next { m.task next with state := .running }
      current := next } := by
  have hparked : ((m.modify m.current Queue.parked).task m.current).state ≠ .dead := by
    simpa [modify, Queue.parked_dead_iff] using hdead
  rw [switchTo]
  rw [if_neg hparked]
  simp [modify, update_of_ne hne.symm]

/-- The switch away from a task that is dead. -/
lemma switchTo_dead (hdead : (m.task m.current).state = .dead) (hne : m.current ≠ next) :
    m.switchTo next = { m with
      next := update
        (update m.next (m.predecessor m.current) (m.next m.current)) m.current m.deadList
      task := update (update m.task m.current (Queue.bury (m.task m.current)))
        next { m.task next with state := .running }
      deadList := m.current
      current := next } := by
  have hparked : m.modify m.current Queue.parked = m := by
    rw [modify, Queue.parked_eq_of_dead hdead, update_eq_self]
  rw [switchTo]
  rw [hparked, if_pos hdead]
  simp [modify, setNext, update_of_ne hne.symm]

/-- The pointers have moved on quietly, to such that represent the queue `q`. -/
def Becomes (m m' : RawSched) (q : Queue) : Prop :=
  ∃ ring' dead', Repr m' ring' dead' ∧ m'.queue ring' dead' = q ∧ Quiet m m'

section
variable (h : Repr m ring dead)
include h

lemma Repr.becomes : Becomes m m (m.queue ring dead) :=
  ⟨ring, dead, h, rfl, .of_eq rfl rfl rfl⟩

/-- **The switch** on the pointers is the switch on the lists. -/
lemma Repr.switchTo (hsplit : ring = before ++ next :: after)
    (hidle : (m.task m.current).state = .dead → m.current ≠ idlePtr) :
    Becomes m (m.switchTo next)
      ((m.queue ring dead).switchTo (before.map m.task) (m.task next) (after.map m.task)) := by
  subst hsplit
  have hnd := h.nodup
  have hcn : m.current ≠ next := by grind
  -- two records change, no other one, and neither changes its pid
  have hmap : ∀ (t t' : Task) (xs : List Nat), next ∉ xs → m.current ∉ xs →
      xs.map (update (update m.task m.current t) next t') = xs.map m.task :=
    fun t t' xs hn hc => by rw [map_update_of_notMem hn, map_update_of_notMem hc]
  have hpid : ∀ t : Task, t.pid = (m.task m.current).pid → (update (update m.task m.current t) next
        { m.task next with state := .running } idlePtr).pid = 0 := by
    intro t ht
    by_cases hn : idlePtr = next
    · rw [← hn, update_self]
      exact h.idlePid
    · rw [update_of_ne hn]
      by_cases hc : idlePtr = m.current
      · rw [← hc, update_self, ht, ← hc, h.idlePid]
      · rw [update_of_ne hc, h.idlePid]
  by_cases hdead : (m.task m.current).state = .dead
  · obtain ⟨ps, l, hlast⟩ : ∃ ps l, before ++ next :: after = ps ++ [l] :=
      ⟨_, _, (dropLast_append_getLast (by simp)).symm⟩
    have hlen := h.length_ring
    rw [hlast, length_append, length_singleton] at hlen
    obtain ⟨hpred, hcycle, hchain⟩ := unlink_links (n := m.rounds) (hlast ▸ h.cycle) h.chain
      (hlast ▸ h.nodup) (by omega)
    rw [← hlast] at hcycle
    have hq : (m.queue (before ++ next :: after) dead).cur.state = .dead := hdead
    rw [switchTo_dead hdead hcn, Queue.switchTo_eq, if_pos hq]
    have hperm : (m.current :: (before ++ next :: after) ++ dead).Perm
        (next :: (after ++ before) ++ m.current :: dead) := by
      grind
    refine ⟨after ++ before, m.current :: dead, ⟨?_, ?_, hperm.nodup_iff.mp h.nodup,
      fun hm => h.null (hperm.mem_iff.mpr hm), h.live.trans hperm, ?_, hpid _ rfl⟩, ?_,
      .of_eq rfl rfl rfl⟩
    · dsimp only
      rw [predecessor, hpred]
      exact hcycle.rotate
    · dsimp only
      rw [predecessor, hpred]
      exact hchain
    · have hi := h.idle
      grind
    · simp only [queue, map_append, map_cons, update_self, update_of_ne hcn,
        hmap _ _ before (by grind) (by grind), hmap _ _ after (by grind) (by grind),
        hmap _ _ dead (by grind) (by grind)]
  have hq : (m.queue (before ++ next :: after) dead).cur.state ≠ .dead := hdead
  rw [switchTo_alive hdead hcn, Queue.switchTo_eq, if_neg hq]
  have hperm : (m.current :: (before ++ next :: after) ++ dead).Perm
      (next :: (after ++ m.current :: before) ++ dead) := by
    grind
  have hcycle : Path m.next m.current ((m.current :: before) ++ next :: after) m.current := h.cycle
  refine ⟨after ++ m.current :: before, dead, ⟨hcycle.rotate, h.chain, hperm.nodup_iff.mp h.nodup,
    fun hm => h.null (hperm.mem_iff.mpr hm), h.live.trans hperm, ?_,
    hpid _ (Queue.parked_pid _)⟩, ?_, .of_eq rfl rfl rfl⟩
  · have hi := h.idle
    grind
  · simp only [queue, map_append, map_cons, update_self, update_of_ne hcn,
      hmap _ _ before (by grind) (by grind), hmap _ _ after (by grind) (by grind),
      hmap _ _ dead (by grind) (by grind)]

/-- The queue's choice, read off the pointers. -/
lemma cut_runnable (hpids : m.PidsDistinct ring dead) : cut Queue.runnable (m.queue ring dead).rest =
      (cut m.readyOther ring).map fun c => (c.1.map m.task, m.task c.2.1, c.2.2.map m.task) := by
  have htest : ∀ p ∈ ring, (Queue.runnable ∘ m.task) p = m.readyOther p := by
    intro p hp
    have hiff := h.pid_eq_zero_iff hpids (p := p) (by simp [hp])
    simp [Queue.runnable, readyOther, hiff]
  simp only [queue]
  rw [cut_map, cut_congr htest]

/-- The fallback, read off the pointers. -/
lemma cut_idleReady (hpids : m.PidsDistinct ring dead)
    (hsplit : ring = before ++ idlePtr :: after) (hready : (m.task idlePtr).state = .ready) :
    cut Queue.idleReady (m.queue ring dead).rest =
      some (before.map m.task, m.task idlePtr, after.map m.task) := by
  have hbefore : ∀ p ∈ before, (Queue.idleReady ∘ m.task) p = false := by
    intro p hp
    have hiff := h.pid_eq_zero_iff hpids (p := p) (by simp [hsplit, hp])
    have hne : p ≠ idlePtr := by
      rintro rfl
      have hnd := (nodup_cons.mp h.nodup_ring).2
      rw [hsplit] at hnd
      exact (nodup_append.mp hnd).2.2 idlePtr hp idlePtr (by simp) rfl
    simp [Queue.idleReady, hiff, hne]
  have hidle : (Queue.idleReady ∘ m.task) idlePtr = true := by
    simp [Queue.idleReady, hready, h.idlePid]
  simp only [queue]
  rw [cut_map, hsplit, cut_append hbefore hidle]
  rfl

/-- **`schedule`** on the pointers is `schedule` on the lists. -/
lemma Repr.schedule (hwf : (m.queue ring dead).Wf bound) :
    Becomes m m.schedule (m.queue ring dead).schedule.1 := by
  obtain ⟨dead1, h1, hq1, hframe⟩ := h.schedReap
  have hwf1 := hwf.reapedTo (m.queue ring dead).reap_reapedTo
  rw [← hq1] at hwf1
  have hpids := pidsDistinct_of_wf hwf1
  have hstay : (m.queue ring dead).reap.1.pick = none →
      (m.queue ring dead).schedule.1 = (m.queue ring dead).reap.1 :=
    fun hn => by rw [Queue.schedule_of_none hn]
  have hswitch : ∀ {before next after}, (m.queue ring dead).reap.1.pick =
      some (before, next, after) → (m.queue ring dead).schedule.1 =
        (m.queue ring dead).reap.1.switchTo before next after :=
    fun hs => by rw [Queue.schedule_of_some hs]
  rw [← hq1] at hstay hswitch
  have hcur : (m.schedReap.task m.schedReap.current).state = .dead → m.schedReap.current ≠ idlePtr := by
    intro hdead he
    have hpid : (m.schedReap.queue ring dead1).cur.pid = 0 := by
      simpa [queue, he] using h1.idlePid
    have hst : (m.schedReap.queue ring dead1).cur.state = .dead := hdead
    rcases hwf1.cur hpid with hs | hs <;> simp [hst] at hs
  have hpath : Path m.schedReap.next (m.schedReap.next m.schedReap.current) ring
      m.schedReap.current := h1.cycle.2
  have hlen := h1.length_ring
  rw [RawSched.schedule]
  dsimp only
  generalize hm1 : m.schedReap = m1 at h1 hq1 hframe hwf1 hpids hstay hswitch hcur hpath hlen ⊢
  cases hcut : cut m1.readyOther ring with
  | some c =>
    obtain ⟨before, x, after⟩ := c
    obtain ⟨hsplit, -, -⟩ := cut_eq_some hcut
    have hx : (m1.pickLoop m1.current m1.rounds (m1.next m1.current) 0).1 = x :=
      (pickLoop_spec hpath h1.current_notMem hlen.le).1 _ hcut
    have hne : x ≠ m1.current := fun he =>
      h1.current_notMem (by rw [← he, hsplit]; simp)
    have hpick : (m1.queue ring dead1).pick =
        some (before.map m1.task, m1.task x, after.map m1.task) := by
      rw [Queue.pick, cut_runnable h1 hpids, hcut]
      rfl
    rw [hx, if_neg hne, hswitch hpick]
    obtain ⟨ring', dead', hrepr, hqueue, hquiet⟩ := h1.switchTo hsplit hcur
    exact ⟨ring', dead', hrepr, hqueue, hframe.toQuiet.trans hquiet⟩
  | none =>
    have hloop : m1.pickLoop m1.current m1.rounds (m1.next m1.current) 0 = _ :=
      (pickLoop_spec hpath h1.current_notMem hlen.le).2 hcut
    have hpick : (m1.queue ring dead1).pick =
        if (m1.task m1.current).state = .running then none
        else cut Queue.idleReady (m1.queue ring dead1).rest := by
      rw [Queue.pick, cut_runnable h1 hpids, hcut]
      rfl
    rw [hloop, if_pos rfl]
    by_cases hrun : (m1.task m1.current).state = .running
    · rw [if_pos (.inr hrun), hstay (by rw [hpick, if_pos hrun])]
      exact ⟨ring, dead1, h1, rfl, hframe.toQuiet⟩
    rw [if_neg hrun] at hpick
    by_cases hidle : idlePtr ∈ ring ∧ (m1.task idlePtr).state = .ready
    · obtain ⟨before, after, hsplit⟩ := append_of_mem hidle.1
      rw [cut_idleReady h1 hpids hsplit hidle.2] at hpick
      have hfb : (if 0 = 0 ∧ idlePtr ∈ ring ∧ (m1.task idlePtr).state = .ready then idlePtr
          else 0) = idlePtr := if_pos ⟨rfl, hidle⟩
      rw [hfb, if_neg (by simp [hrun, idlePtr]), hswitch hpick]
      obtain ⟨ring', dead', hrepr, hqueue, hquiet⟩ := h1.switchTo hsplit hcur
      exact ⟨ring', dead', hrepr, hqueue, hframe.toQuiet.trans hquiet⟩
    have hfb : (if 0 = 0 ∧ idlePtr ∈ ring ∧ (m1.task idlePtr).state = .ready then idlePtr
        else 0) = 0 := if_neg fun hc => hidle hc.2
    have hnone : cut Queue.idleReady (m1.queue ring dead1).rest = none := by
      rw [cut_eq_none]
      intro t ht
      obtain ⟨p, hp, rfl⟩ := mem_map.mp ht
      refine decide_eq_false fun hc => hidle ?_
      obtain rfl := (h1.pid_eq_zero_iff hpids (by simp [hp])).mp hc.2
      exact ⟨hp, hc.1⟩
    rw [hfb, if_pos (.inl rfl), hstay (hpick.trans hnone)]
    exact ⟨ring, dead1, h1, rfl, hframe.toQuiet⟩

/-! ## The other operations -/

/-- A new record is linked in right before the current one. -/
lemma Repr.insert (hp : p ∉ m.live) (hp0 : p ≠ 0) (t : Task) : Repr (m.insert p t) (ring ++ [p]) dead ∧
      (m.insert p t).queue (ring ++ [p]) dead = (m.queue ring dead).insert t := by
  have hcells : p ∉ m.current :: ring ++ dead := fun hm => hp (h.live.mem_iff.mpr hm)
  have hpr : p ∉ m.current :: ring := fun hm => hcells (mem_append_left _ hm)
  have hpd : p ∉ dead := fun hm => hcells (mem_append_right _ hm)
  have hpc : m.current ≠ p := fun he => hpr (he ▸ mem_cons_self)
  have hpring : p ∉ ring := fun hm => hpr (mem_cons_of_mem _ hm)
  obtain ⟨ps, l, hlast⟩ : ∃ ps l, m.current :: ring = ps ++ [l] :=
    ⟨_, _, (dropLast_append_getLast (cons_ne_nil _ _)).symm⟩
  have hlen := h.length_ring
  have hlen' := congrArg length hlast
  simp only [length_cons, length_append, length_nil] at hlen'
  have hpred : walk m.next (fun q => decide (m.next q = m.current)) (m.rounds + 1) m.current = l :=
    walk_predecessor (hlast ▸ h.cycle) (hlast ▸ h.nodup_ring) (by omega)
  have hl : l ∈ m.current :: ring := by simp [hlast]
  have hlps : l ∉ ps := by
    have hnd := h.nodup_ring
    rw [hlast] at hnd
    exact fun hm => (nodup_append.mp hnd).2.2 l hm l (by simp) rfl
  have hinsert : m.insert p t = { m with
      next := update (update m.next l p) p m.current
      task := update m.task p t
      live := p :: m.live } := by
    have hrounds : m.live.length + 1 + m.frees.length = m.rounds + 1 := by
      simp only [rounds]
      omega
    have hpred' : walk m.next (fun q => decide (m.next q = m.current))
        (m.live.length + 1 + m.frees.length) m.current = l := by rw [hrounds, hpred]
    simp only [RawSched.insert, setNext, predecessor, rounds, length_cons, hpred']
  have hperm : (p :: (m.current :: ring ++ dead)).Perm (m.current :: (ring ++ [p]) ++ dead) := by
    grind
  rw [hinsert]
  refine ⟨⟨?_, ?_, ?_, ?_, (h.live.cons p).trans hperm, ?_, ?_⟩, ?_⟩
  · have hring : Path (update (update m.next l p) p m.current) m.current
        (m.current :: ring) p := by
      have hrelink := (hlast ▸ h.cycle : Path m.next m.current (ps ++ [l]) m.current).update_last
        (r := p) hlps
      rw [← hlast] at hrelink
      exact hrelink.update hpr
    have hcells' : m.current :: (ring ++ [p]) = (m.current :: ring) ++ [p] := rfl
    exact hring.append ⟨rfl, update_self _ _ _⟩
  · exact (h.chain.update fun hm => h.disjoint hm hl).update hpd
  · exact hperm.nodup_iff.mp (nodup_cons.mpr ⟨hcells, h.nodup⟩)
  · intro hm
    rcases mem_cons.mp (hperm.mem_iff.mpr hm) with h0 | hm
    · exact hp0 h0.symm
    · exact h.null hm
  · have hi := h.idle
    simp only [mem_cons, mem_append] at hi ⊢
    tauto
  · have hne : idlePtr ≠ p := fun he => hpr (he ▸ h.idle)
    simp only [update_of_ne hne, h.idlePid]
  · simp [queue, Queue.insert, update_of_ne hpc, map_update_of_notMem hpring, map_update_of_notMem hpd]

section
variable (hwf : (m.queue ring dead).Wf bound) (hidle : m.current ≠ idlePtr)
include hwf hidle

/-- A task other than the idle one rewrites its own record and calls `schedule`. -/
lemma Repr.scheduleAfter (f : Task → Task) (hf : ∀ t, (f t).pid = t.pid) :
    Becomes m (m.modify m.current f).schedule
      (Queue.schedule { m.queue ring dead with cur := f (m.task m.current) }).1 := by
  have hcur : (m.task m.current).pid ≠ 0 := fun h0 =>
    hidle ((h.pid_eq_zero_iff (pidsDistinct_of_wf hwf) (by simp)).mp h0)
  have hq := queue_modify_current h f
  have hwf' : ((m.modify m.current f).queue ring dead).Wf bound := by
    rw [hq]
    exact hwf.setCur (hf _) fun h0 => absurd ((hf _).symm.trans h0) hcur
  obtain ⟨ring', dead', hrepr, hqueue, hquiet⟩ := (h.modify m.current hf).schedule hwf'
  exact ⟨ring', dead', hrepr, hqueue.trans (by rw [hq]), hquiet.ticks, hquiet.nextPid, hquiet.frees⟩

lemma Repr.taskExit (code : Int) : Becomes m (m.taskExit code) ((m.queue ring dead).taskExit code).1 :=
  h.scheduleAfter hwf hidle (fun t => { t with exitCode := code, state := .dead }) fun _ => rfl

lemma Repr.sleepMs (ms : Nat) : Becomes m (m.sleepMs ms) ((m.queue ring dead).sleepMs m.ticks ms).1 :=
  h.scheduleAfter hwf hidle
    (fun t => { t with
      sleepUntil := (m.ticks + if ms / Queue.timerIntervalMs = 0 then 1
        else ms / Queue.timerIntervalMs) % 2 ^ 64
      state := .sleeping })
    fun _ => rfl

end

/-- The other cells of the ring, in the order the loops from the idle task visit them. -/
lemma Repr.fromIdle : ∃ others, Path m.next (m.next idlePtr) others idlePtr ∧
      (idlePtr :: others).Perm (m.current :: ring) ∧ others.length ≤ m.rounds ∧
      idlePtr ∉ others := by
  obtain ⟨others, hring, hperm⟩ := h.cycle.ring_at h.idle
  have hlen := hperm.length_eq
  have hlt := h.length_ring
  simp only [length_cons] at hlen
  exact ⟨others, hring.2, hperm, by omega, (nodup_cons.mp (hperm.nodup_iff.mpr h.nodup_ring)).1⟩

/-- **`sched_wake_sleepers`** at a tick. -/
lemma Repr.tick : Repr m.tick ring dead ∧
      m.tick.queue ring dead = (m.queue ring dead).wakeSleepers (m.ticks + 1) := by
  obtain ⟨others, hpath, hperm, hlen, hidle⟩ := h.fromIdle
  have hnd : others.Nodup := (nodup_cons.mp (hperm.nodup_iff.mpr h.nodup_ring)).2
  have hstop : ∀ p ∈ others, decide (p = idlePtr) = false := by
    intro p hp
    simpa using fun he : p = idlePtr => hidle (he ▸ hp)
  have htask : ∀ p, m.tick.task p =
      if p ∈ others then Queue.wake (m.ticks + 1) (m.task p) else m.task p := by
    intro p
    have hsweep : m.tick.task = others.foldl
        (fun task p => update task p (Queue.wake (m.ticks + 1) (task p))) m.task :=
      sweep_eq_foldl hpath (by simp) hstop hlen
    rw [hsweep, foldl_update_apply _ _ _ hnd]
  -- the idle task is left out of the loop, and waking would not change it
  have hring : ∀ p ∈ m.current :: ring, m.tick.task p = Queue.wake (m.ticks + 1) (m.task p) := by
    intro p hp
    rw [htask]
    split_ifs with hno
    · rfl
    · have hp0 : p = idlePtr := (mem_cons.mp (hperm.mem_iff.mpr hp)).resolve_right hno
      simp [hp0, Queue.wake, h.idlePid]
  have hdead : ∀ p ∈ dead, m.tick.task p = m.task p := by
    intro p hp
    rw [htask, if_neg fun ho => h.disjoint hp (hperm.mem_iff.mp (mem_cons_of_mem _ ho))]
  refine ⟨⟨h.cycle, h.chain, h.nodup, h.null, h.live, h.idle, ?_⟩, ?_⟩
  · rw [hring idlePtr h.idle, Queue.wake_pid, h.idlePid]
  have hcur : m.tick.current = m.current := rfl
  simp only [queue, Queue.wakeSleepers, hcur, hring m.current mem_cons_self,
    map_congr_left hdead, map_map]
  rw [map_congr_left fun p hp => hring p (mem_cons_of_mem _ hp)]
  rfl

/-- The search for a pid finds the record of the ring that carries it. -/
lemma findPid_eq (hpids : m.PidsDistinct ring dead) (hpid : pid ≠ 0) (hp : p ∈ m.current :: ring)
    (htask : (m.task p).pid = pid) :
    m.findPid pid = p := by
  obtain ⟨others, hpath, hperm, hlen, hidle⟩ := h.fromIdle
  have hne : p ≠ idlePtr := by
    rintro rfl
    exact hpid (htask.symm.trans h.idlePid)
  have hpo : p ∈ others := (mem_cons.mp (hperm.mem_iff.mpr hp)).resolve_left hne
  rw [findPid, walk_eq_find hpath (by simp) hlen]
  cases hfind : others.find? (fun t => decide (t = idlePtr ∨ (m.task t).pid = pid)) with
  | none =>
    have hno := find?_eq_none.mp hfind p hpo
    simp [htask] at hno
  | some q =>
    have hq := mem_of_find?_eq_some hfind
    have htest : q = idlePtr ∨ (m.task q).pid = pid := by simpa using find?_some hfind
    have hqpid : (m.task q).pid = pid := htest.resolve_left fun he => hidle (he ▸ hq)
    have hqr : q ∈ m.current :: ring := hperm.mem_iff.mp (mem_cons_of_mem _ hq)
    exact inj_on_of_nodup_map hpids (mem_append_left _ hqr)
      (mem_append_left _ hp) (hqpid.trans htask.symm)

/-- When no record of the ring carries the pid, the search ends at one that does not. -/
lemma findPid_ne (hpid : pid ≠ 0) (hno : ∀ p ∈ m.current :: ring, (m.task p).pid ≠ pid) :
    (m.task (m.findPid pid)).pid ≠ pid := by
  obtain ⟨others, hpath, hperm, hlen, -⟩ := h.fromIdle
  rw [findPid, walk_eq_find hpath (by simp) hlen]
  cases hfind : others.find? (fun t => decide (t = idlePtr ∨ (m.task t).pid = pid)) with
  | none => simpa [h.idlePid] using hpid.symm
  | some q =>
    exact hno q (hperm.mem_iff.mp (mem_cons_of_mem _ (mem_of_find?_eq_some hfind)))

/-- A record of the ring behind the current one is unlinked, pushed on the dead list and
rewritten. -/
lemma Repr.buryOther (hsplit : ring = before ++ p :: after) (hidle : p ≠ idlePtr) (f : Task → Task) :
    Repr (({ ((m.setNext (m.predecessor p) (m.next p)).setNext p m.deadList) with
        deadList := p } : RawSched).modify p f) (before ++ after) (p :: dead) ∧
      (({ ((m.setNext (m.predecessor p) (m.next p)).setNext p m.deadList) with
        deadList := p } : RawSched).modify p f).queue (before ++ after) (p :: dead) =
      { m.queue ring dead with
        rest := before.map m.task ++ after.map m.task
        dead := f (m.task p) :: dead.map m.task } := by
  subst hsplit
  have hperm : (m.current :: (before ++ p :: after) ++ dead).Perm
      (p :: (after ++ m.current :: before) ++ dead) := by
    grind
  have hperm' : (p :: (after ++ m.current :: before) ++ dead).Perm
      (m.current :: (before ++ after) ++ p :: dead) := by
    grind
  have hnd := hperm.nodup_iff.mp h.nodup
  have hcycle : Path m.next p (p :: (after ++ m.current :: before)) p := by
    have hc : Path m.next m.current ((m.current :: before) ++ p :: after) m.current := h.cycle
    exact hc.rotate
  obtain ⟨ps, l, hlast⟩ : ∃ ps l, after ++ m.current :: before = ps ++ [l] :=
    ⟨_, _, (dropLast_append_getLast (by simp)).symm⟩
  have hlen := h.length_ring
  have hlen' := congrArg length hlast
  simp only [length_cons, length_append, length_nil] at hlen hlen'
  rw [hlast] at hcycle hnd
  obtain ⟨hpred, hring, hchain⟩ := unlink_links (n := m.rounds) hcycle h.chain hnd (by omega)
  rw [← hlast] at hring
  have hpn : p ∉ m.current :: (before ++ after) ++ dead := by
    grind
  simp only [mem_append, mem_cons, not_or] at hpn
  simp only [RawSched.modify, setNext, predecessor, hpred]
  refine ⟨⟨hring.rotate, hchain, (hperm.trans hperm').nodup_iff.mp h.nodup,
    fun hm => h.null ((hperm.trans hperm').mem_iff.mpr hm), h.live.trans (hperm.trans hperm'), ?_,
    ?_⟩, ?_⟩
  · have hi := h.idle
    grind
  · simp only [update_of_ne hidle.symm, h.idlePid]
  · simp [queue, update_of_ne (Ne.symm hpn.1.1), map_update_of_notMem hpn.1.2.1,
      map_update_of_notMem hpn.1.2.2, map_update_of_notMem hpn.2]

/-- **`sched_kill_task`** on the pointers is `killTask` on the lists. -/
lemma Repr.schedKillTask (hwf : (m.queue ring dead).Wf bound) (pid : Nat) :
    Becomes m (m.schedKillTask pid).2 ((m.queue ring dead).killTask pid).2.1 ∧
      (m.schedKillTask pid).1 = ((m.queue ring dead).killTask pid).1 := by
  have hpids := pidsDistinct_of_wf hwf
  have hsame : Becomes m m (m.queue ring dead) ∧ (-1 : Int) = -1 := ⟨h.becomes, rfl⟩
  rw [RawSched.schedKillTask, Queue.killTask]
  by_cases hpid : pid = 0
  · rw [if_pos hpid, if_pos hpid]
    exact hsame
  rw [if_neg hpid, if_neg hpid]
  by_cases hcur : (m.task m.current).pid = pid
  · have hq : (m.queue ring dead).cur.pid = pid := hcur
    rw [findPid_eq h hpids hpid mem_cons_self hcur, if_neg (not_not.mpr hcur), if_pos hq]
    by_cases hdead : (m.task m.current).state = .dead
    · have hqd : (m.queue ring dead).cur.state = .dead := hdead
      rw [if_pos hdead, if_pos hqd]
      exact hsame
    have hqd : (m.queue ring dead).cur.state ≠ .dead := hdead
    have hidle : m.current ≠ idlePtr := by
      intro he
      exact hpid (by rw [← hcur, he, h.idlePid])
    rw [if_neg hdead, if_pos rfl, if_neg hqd]
    exact ⟨h.taskExit hwf hidle 0, rfl⟩
  have hq : (m.queue ring dead).cur.pid ≠ pid := hcur
  rw [if_neg hq]
  have hcutmap : cut (fun t => decide (t.pid = pid)) (m.queue ring dead).rest =
      (cut (fun p => decide ((m.task p).pid = pid)) ring).map
        fun c => (c.1.map m.task, m.task c.2.1, c.2.2.map m.task) :=
    cut_map m.task _ ring
  cases hcut : cut (fun p => decide ((m.task p).pid = pid)) ring with
  | none =>
    have hno : ∀ p ∈ m.current :: ring, (m.task p).pid ≠ pid :=
      forall_mem_cons.mpr ⟨hcur, fun p hp => of_decide_eq_false (cut_eq_none.mp hcut p hp)⟩
    rw [if_pos (findPid_ne h hpid hno), hcutmap, hcut]
    exact hsame
  | some c =>
    obtain ⟨before, p, after⟩ := c
    obtain ⟨hsplit, htest, -⟩ := cut_eq_some hcut
    have hp : (m.task p).pid = pid := of_decide_eq_true htest
    have hpr : p ∈ ring := by simp [hsplit]
    rw [findPid_eq h hpids hpid (mem_cons_of_mem _ hpr) hp, if_neg (not_not.mpr hp), hcutmap, hcut]
    simp only [Option.map_some]
    by_cases hdead : (m.task p).state = .dead
    · rw [if_pos hdead, if_pos hdead]
      exact hsame
    have hpc : p ≠ m.current := fun he => h.current_notMem (he ▸ hpr)
    have hidle : p ≠ idlePtr := by
      rintro rfl
      exact hpid (hp.symm.trans h.idlePid)
    rw [if_neg hdead, if_neg hpc, if_neg hdead]
    obtain ⟨hrepr, hqueue⟩ := h.buryOther hsplit hidle fun task =>
      { Queue.bury task with exitCode := -1 }
    exact ⟨⟨_, _, hrepr, hqueue, .of_eq rfl rfl rfl⟩, rfl⟩

end

/-! ## Waiting -/

/-- The search on the dead list stops at the first match, with the entry before it at hand, or behind
the last entry. -/
lemma waitScan_eq {pidArg : Int} {c : Nat} {ds : List Nat} (h : Path m.next c ds 0)
    (hnull : 0 ∉ ds) (hn : ds.length ≤ n) :
    m.waitScan pidArg n prev c =
      ((cut (fun p => Queue.isChild (m.task m.current) pidArg (m.task p)) ds).elim
        (ds.getLastD prev, 0) fun c => (c.1.getLastD prev, c.2.1)) := by
  induction ds generalizing c n prev with
  | nil =>
    obtain rfl : c = 0 := h
    cases n <;> simp [waitScan, cut]
  | cons y ys ih =>
    obtain ⟨rfl, htail⟩ := h
    rw [mem_cons, not_or] at hnull
    cases n with
    | zero => exact absurd hn (Nat.not_succ_le_zero _)
    | succ n =>
      rw [waitScan, if_neg fun he => hnull.1 he.symm, cut]
      split_ifs
      · rfl
      rw [ih htail hnull.2 (Nat.le_of_succ_le_succ hn), getLastD_cons]
      cases cut (fun p => Queue.isChild (m.task m.current) pidArg (m.task p)) ys with
      | none => rfl
      | some c => simp only [Option.map_some, Option.elim_some, getLastD_cons]

/-- The match leaves the dead list and is freed. -/
lemma Repr.waitUnlink (h : Repr m ring dead) (hsplit : dead = before ++ x :: after) :
    Repr (m.waitUnlink (before.getLastD 0) x) ring (before ++ after) ∧
      (m.waitUnlink (before.getLastD 0) x).queue ring (before ++ after) =
        { m.queue ring dead with dead := before.map m.task ++ after.map m.task } ∧
      Frame m (m.waitUnlink (before.getLastD 0) x) := by
  subst hsplit
  have hx : x ∉ m.current :: ring := h.disjoint (by simp)
  have hsub : (m.current :: ring ++ (before ++ after)).Sublist
      (m.current :: ring ++ (before ++ x :: after)) := by simp
  have hnd := h.nodup.sublist hsub
  have hnull : 0 ∉ m.current :: ring ++ (before ++ after) := fun hm => h.null (hsub.subset hm)
  have hlive : (m.live.erase x).Perm (m.current :: ring ++ (before ++ after)) := by
    have hmove : (m.current :: ring ++ (before ++ x :: after)).Perm
        (x :: (m.current :: ring ++ (before ++ after))) := by
      grind
    have herase := (h.live.trans hmove).erase x
    rwa [erase_cons_head] at herase
  obtain ⟨r, hbefore, hxr, hafter⟩ := Path.append_iff.mp h.chain
  subst hxr
  rcases eq_nil_or_concat before with rfl | ⟨bs, l, rfl⟩
  · have hframe : Frame { m with deadList := m.next r }
        (schedFreeTask { m with deadList := m.next r } r) := frame_schedFreeTask h.cycle hx
    have heq : m.waitUnlink (([] : List Nat).getLastD 0) r =
        schedFreeTask { m with deadList := m.next r } r := rfl
    refine ⟨⟨h.cycle, hafter, hnd, hnull, hlive, h.idle, h.idlePid⟩, rfl,
      ⟨hframe.ticks, hframe.nextPid, hframe.frees⟩, hframe.current⟩
  have hl : l ∈ bs.concat l ++ r :: after := by simp
  have hl0 : l ≠ 0 := h.ne_zero (mem_append_right _ hl)
  have hlr : l ∉ m.current :: ring := h.disjoint hl
  have hndd := (nodup_append.mp hnd).2.1
  rw [concat_eq_append] at hbefore hndd
  have hlb : l ∉ bs := by grind
  have hla : l ∉ after := by grind
  have hcycle : Path (m.setNext l (m.next r)).next m.current (m.current :: ring) m.current :=
    h.cycle.update hlr
  have hchain : Path (m.setNext l (m.next r)).next m.deadList (bs.concat l ++ after) 0 := by
    rw [concat_eq_append]
    exact (hbefore.update_last hlb).append (hafter.update hla)
  have hframe : Frame (m.setNext l (m.next r)) (schedFreeTask (m.setNext l (m.next r)) r) :=
    frame_schedFreeTask hcycle hx
  have heq : m.waitUnlink ((bs.concat l).getLastD 0) r = schedFreeTask (m.setNext l (m.next r)) r := by
    simp [RawSched.waitUnlink, hl0]
  rw [heq]
  refine ⟨⟨hcycle, hchain, hnd, hnull, hlive, h.idle, h.idlePid⟩, ?_,
    ⟨hframe.ticks, hframe.nextPid, hframe.frees⟩, hframe.current⟩
  simp [queue, schedFreeTask, setNext]

/-- A search that stops at an end which is not itself a match. -/
lemma walk_any (stop test : Nat → Bool) {q : Nat} (h : Path m.next p ps q) (hq : stop q = true)
    (hps : ∀ x ∈ ps, stop x = false) (hn : ps.length ≤ n) :
    (test q || test (walk m.next (fun x => stop x || test x) n p)) = (test q || ps.any test) := by
  rw [walk_eq_find h (by simp [hq]) hn]
  have htests : ps.find? (fun x => stop x || test x) = ps.find? test := by
    refine find?_congr fun x hx => by simp [hps x hx]
  rw [htests]
  cases hfind : ps.find? test with
  | none =>
    have hany : ps.any test = false := by
      rw [any_eq_false]
      exact find?_eq_none.mp hfind
    simp [hany]
  | some x =>
    have hany : ps.any test = true := any_eq_true.mpr ⟨x, mem_of_find?_eq_some hfind, find?_some hfind⟩
    simp [hany, find?_some hfind]

lemma hasMatchingChild_eq (h : Repr m ring dead) (hpids : m.PidsDistinct ring dead)
    (pidArg : Int) : m.hasMatchingChild pidArg = (m.queue ring dead).hasMatchingChild pidArg := by
  obtain ⟨others, hpath, hperm, hlen, hidle⟩ := h.fromIdle
  have hstop : ∀ p ∈ others, decide (p = 0 ∨ p = idlePtr) = false := by
    intro p hp
    have hmem : p ∈ m.current :: ring := hperm.mem_iff.mp (mem_cons_of_mem _ hp)
    have hp0 : p ≠ 0 := h.ne_zero (mem_append_left _ hmem)
    have hp1 : p ≠ idlePtr := fun he => hidle (he ▸ hp)
    simp [hp0, hp1]
  have hdead0 : ∀ p ∈ dead, decide (p = 0) = false := by
    intro p hp
    simpa using h.ne_zero (mem_append_right _ hp)
  have hring := walk_any (fun t => decide (t = 0 ∨ t = idlePtr)) (fun t => decide (t ≠ m.current) &&
    Queue.isChild (m.task m.current) pidArg (m.task t)) hpath (by simp) hstop hlen
  have hdead := walk_any (fun d => decide (d = 0)) (fun d => decide (d ≠ 0) &&
    Queue.isChild (m.task m.current) pidArg (m.task d)) h.chain (by simp) hdead0 h.length_dead
  have htest : ∀ d, (decide (d = 0) || (decide (d ≠ 0) &&
      Queue.isChild (m.task m.current) pidArg (m.task d))) =
      (decide (d = 0) || Queue.isChild (m.task m.current) pidArg (m.task d)) := by
    intro d
    by_cases hd : d = 0 <;> simp [hd]
  have hany : dead.any (fun d => decide (d ≠ 0) && Queue.isChild (m.task m.current) pidArg (m.task d)) =
      dead.any fun d => Queue.isChild (m.task m.current) pidArg (m.task d) := by
    refine any_congr_mem fun d hd => ?_
    have hd0 := hdead0 d hd
    simp [hd0]
  simp only [htest, hany, ne_eq, not_true_eq_false, decide_false, Bool.false_and,
    Bool.false_or] at hdead
  have hcells : ((idlePtr :: others).any fun t => decide (t ≠ m.current) &&
      Queue.isChild (m.task m.current) pidArg (m.task t)) =
      (m.queue ring dead).ring.any fun t => decide (t.pid ≠ (m.queue ring dead).cur.pid) &&
        Queue.isChild (m.queue ring dead).cur pidArg t := by
    have hmap : (m.queue ring dead).ring = (m.current :: ring).map m.task := rfl
    have hcongr : ∀ p ∈ m.current :: ring, (decide (p ≠ m.current) &&
        Queue.isChild (m.task m.current) pidArg (m.task p)) =
        (decide ((m.task p).pid ≠ (m.task m.current).pid) &&
          Queue.isChild (m.task m.current) pidArg (m.task p)) := by
      intro p hp
      have hiff : p = m.current ↔ (m.task p).pid = (m.task m.current).pid :=
        ⟨fun he => he ▸ rfl, fun he => inj_on_of_nodup_map hpids (mem_append_left _ hp) (by simp) he⟩
      simp only [ne_eq, hiff]
    rw [hmap, any_map, hperm.any_eq, any_congr_mem hcongr]
    rfl
  rw [RawSched.hasMatchingChild, Queue.hasMatchingChild]
  rw [hring, hdead, ← hcells, any_cons]
  simp [queue, any_map, Function.comp_def]

/-- What a round of `sched_waitpid` gives its caller, from the record of the child. -/
def WaitResult.ofRound : Queue.WaitRound → WaitResult
  | .returned r => .returned r
  | .collected c status => .collected c.pid status
  | .blocked _ => .blocked

/-- **A round of `sched_waitpid`** on the pointers is a round on the lists. -/
lemma Repr.schedWaitpid (h : Repr m ring dead) (hwf : (m.queue ring dead).Wf bound) (pidArg : Int)
    (options : Nat) :
    Becomes m (m.schedWaitpid pidArg options).2 ((m.queue ring dead).waitpid pidArg options).2 ∧
      (m.schedWaitpid pidArg options).1 = .ofRound ((m.queue ring dead).waitpid pidArg options).1 := by
  have hsame : ∀ r : Int, Becomes m m (m.queue ring dead) ∧ WaitResult.returned r = .returned r :=
    fun r => ⟨h.becomes, rfl⟩
  have hnull : 0 ∉ dead := fun hm => h.null (mem_append_right _ hm)
  have hcutmap : cut (Queue.isChild (m.queue ring dead).cur pidArg) (m.queue ring dead).dead =
      (cut (fun p => Queue.isChild (m.task m.current) pidArg (m.task p)) dead).map
        fun c => (c.1.map m.task, m.task c.2.1, c.2.2.map m.task) :=
    cut_map m.task _ dead
  rw [RawSched.schedWaitpid, Queue.waitpid]
  by_cases hneg : pidArg < -1
  · rw [if_pos hneg, if_pos hneg]
    exact hsame (-1)
  rw [if_neg hneg, if_neg hneg, hcutmap]
  cases hcut : cut (fun p => Queue.isChild (m.task m.current) pidArg (m.task p)) dead with
  | some c =>
    obtain ⟨before, x, after⟩ := c
    obtain ⟨hsplit, -, -⟩ := cut_eq_some hcut
    have hx0 : x ≠ 0 := fun h0 => hnull (by rw [← h0, hsplit]; simp)
    rw [waitScan_eq h.chain hnull h.length_dead, hcut]
    simp only [Option.map_some, Option.elim_some, ne_eq, hx0, not_false_eq_true, if_true]
    obtain ⟨hrepr, hqueue, hframe⟩ := h.waitUnlink hsplit
    exact ⟨⟨ring, before ++ after, hrepr, hqueue, hframe.toQuiet⟩, rfl⟩
  | none =>
    have hscan : (m.waitScan pidArg m.rounds 0 m.deadList).2 = 0 := by
      rw [waitScan_eq h.chain hnull h.length_dead, hcut]
      rfl
    simp only [Option.map_none, ne_eq, hscan, not_true_eq_false, if_false,
      hasMatchingChild_eq h (pidsDistinct_of_wf hwf)]
    split
    · exact hsame (-1)
    · split
      · exact hsame 0
      · exact ⟨h.schedule hwf, rfl⟩

end FermiOs.RawSched
