import FermiOs.Library.BlockProg
import FermiOs.Library.Run

/-!
# Two tasks on one device

Two tasks run block programs, one operation after the other; a task chooses its next operation from
the results it has seen. One step of the system is one transfer of one task, so that the tasks may
alternate between any two transfers. A log keeps the finished operations with their transfers.

Two transfers clash if they touch the same block and one of them writes it. If no task makes a transfer
that clashes with one that the unfinished operation of the other has already made (`Separate`), every
operation runs as if it ran alone at the moment it finishes (`Inv`): the device is what the finished
operations leave behind in the order of the log, plus the writes of the unfinished ones.
-/

namespace FermiOs.Library
open List Function

/-- A transfer with its data. -/
inductive Event (β : Type)
  | read (n : Nat) (b : β)
  | write (n : Nat) (b : β)

/-- Two transfers clash: the same block, and one of them writes it. -/
def Transfer.Clash : Transfer → Transfer → Prop
  | .read _, .read _ => False
  | .read n, .write m => n = m
  | .write n, .read m => n = m
  | .write n, .write m => n = m

instance (a b : Transfer) : Decidable (a.Clash b) := by
  cases a <;> cases b <;> dsimp only [Transfer.Clash] <;> infer_instance

lemma Transfer.Clash.symm {a b : Transfer} (h : a.Clash b) : b.Clash a := by
  cases a with
  | read n =>
    cases b with
    | read m => exact h
    | write m => exact Eq.symm h
  | write n =>
    cases b with
    | read m => exact Eq.symm h
    | write m => exact Eq.symm h

variable {n : Nat} {t : Bool}

namespace Event
variable {β : Type} {e : Event β} {d d' : Nat → β}

/-- The transfer without its data. -/
def kind : Event β → Transfer
  | .read n _ => .read n
  | .write n _ => .write n

/-- The block that is touched. -/
def place : Event β → Nat
  | .read n _ => n
  | .write n _ => n

/-- What is read or written. -/
def data : Event β → β
  | .read _ b => b
  | .write _ b => b

/-- The effect on the device. -/
def apply : Event β → (Nat → β) → Nat → β
  | .read _ _, d => d
  | .write n b, d => update d n b

/-- The effect of several transfers. -/
def applyAll (us : List (Event β)) (d : Nat → β) : Nat → β := us.foldl (fun d e => e.apply d) d

@[simp] lemma applyAll_cons (e : Event β) (us : List (Event β)) (d : Nat → β) :
    applyAll (e :: us) d = applyAll us (e.apply d) := rfl

@[simp] lemma applyAll_append (us vs : List (Event β)) (d : Nat → β) :
    applyAll (us ++ vs) d = applyAll vs (applyAll us d) := foldl_append

/-- A block that is not written stays. -/
lemma apply_of_no_write (h : e.kind ≠ .write n) (d : Nat → β) : e.apply d n = d n := by
  cases e with
  | read m b => rfl
  | write m b =>
    refine update_of_ne ?_ _ _
    rintro rfl
    exact h rfl

lemma applyAll_of_no_write {us : List (Event β)} (h : ∀ e ∈ us, e.kind ≠ .write n) (d : Nat → β) :
    applyAll us d n = d n := by
  induction us generalizing d with
  | nil => rfl
  | cons e us ih =>
    rw [applyAll_cons, ih (fun e' he' => h e' (mem_cons_of_mem e he')),
      apply_of_no_write (h e mem_cons_self)]

lemma apply_congr (h : d' n = d n) : e.apply d' n = e.apply d n := by
  cases e with
  | read m b => exact h
  | write m b =>
    show update d' m b n = update d m b n
    by_cases hn : n = m
    · subst hn
      rw [update_self, update_self]
    · rw [update_of_ne hn, update_of_ne hn]
      exact h

/-- Each block evolves by itself. -/
lemma applyAll_congr {us : List (Event β)} (h : d' n = d n) : applyAll us d' n = applyAll us d n := by
  induction us generalizing d d' with
  | nil => exact h
  | cons e us ih => exact ih (apply_congr h)

/-- No transfer of one list clashes with one of the other. -/
def Apart (us vs : List (Event β)) : Prop := ∀ e ∈ us, ∀ e' ∈ vs, ¬ e.kind.Clash e'.kind

lemma Apart.symm {us vs : List (Event β)} (h : Apart us vs) : Apart vs us :=
  fun e he e' he' hc => h e' he' e he hc.symm

/-- A block one list touches is not written by the other. -/
lemma Apart.no_write {us vs : List (Event β)} (h : Apart us vs) (he : e ∈ us) :
    ∀ e' ∈ vs, e'.kind ≠ .write e.place := by
  intro e' he' hk
  refine h e he e' he' ?_
  rw [hk]
  cases e with
  | read n b => exact rfl
  | write n b => exact rfl

/-- Lists that do not clash commute. -/
lemma Apart.comm {us vs : List (Event β)} (h : Apart us vs) (d : Nat → β) :
    applyAll us (applyAll vs d) = applyAll vs (applyAll us d) := by
  funext n
  by_cases hu : ∀ e ∈ us, e.kind ≠ .write n
  · rw [applyAll_of_no_write hu]
    exact (applyAll_congr (applyAll_of_no_write hu d)).symm
  obtain ⟨e, he, hk⟩ : ∃ e ∈ us, e.kind = .write n := by
    simpa using hu
  have hplace : e.place = n := by
    cases e with
    | read m b => cases hk
    | write m b =>
      cases hk
      rfl
  have hv : ∀ e' ∈ vs, e'.kind ≠ .write n := hplace ▸ h.no_write he
  rw [applyAll_of_no_write hv]
  exact applyAll_congr (applyAll_of_no_write hv d)

/-- The data of the last transfer of a block. -/
def lastSeen (n : Nat) : List (Event β) → Option β
  | [] => none
  | e :: us =>
    match lastSeen n us with
    | some b => some b
    | none => if e.place = n then some e.data else none

lemma place_of_lastSeen {us : List (Event β)} {b : β} (h : lastSeen n us = some b) :
    ∃ e ∈ us, e.place = n := by
  induction us with
  | nil => cases h
  | cons e us ih =>
    rw [lastSeen] at h
    cases hl : lastSeen n us with
    | some b' =>
      obtain ⟨e', he', hp⟩ := ih (by rw [hl] at h; rw [hl]; exact h)
      exact ⟨e', mem_cons_of_mem e he', hp⟩
    | none =>
      rw [hl] at h
      by_cases hp : e.place = n
      · exact ⟨e, mem_cons_self, hp⟩
      · rw [if_neg hp] at h
        cases h

lemma no_write_of_lastSeen {us : List (Event β)} (h : lastSeen n us = none) :
    ∀ e ∈ us, e.kind ≠ .write n := by
  induction us with
  | nil => exact forall_mem_nil _
  | cons e us ih =>
    rw [lastSeen] at h
    cases hl : lastSeen n us with
    | some b =>
      rw [hl] at h
      cases h
    | none =>
      rw [hl] at h
      intro e' he' hk
      rcases mem_cons.mp he' with rfl | he'
      · cases e' with
        | read m b => cases hk
        | write m b =>
          cases hk
          have h : (if n = n then some b else none) = none := h
          rw [if_pos rfl] at h
          cases h
      · exact ih hl e' he' hk

end Event

namespace BlockProg
variable {β α : Type}

/-- The transfer a program makes next, with its data, and what remains. -/
def next : BlockProg β α → (Nat → β) → Option (Event β × BlockProg β α)
  | .ret _, _ => none
  | .read n k, d => some (.read n (d n), k (some (d n)))
  | .write n b k, _ => some (.write n b, k true)

/-- Its kind, which does not depend on the device. -/
def pending : BlockProg β α → Option Transfer
  | .ret _ => none
  | .read n _ => some (.read n)
  | .write n _ _ => some (.write n)

/-- The program makes the transfers `us` and goes on as `p'`. -/
def Steps : BlockProg β α → (Nat → β) → List (Event β) → BlockProg β α → Prop
  | p, _, [], p' => p = p'
  | p, d, e :: us, p' => ∃ q, p.next d = some (e, q) ∧ Steps q (e.apply d) us p'

variable {p p' : BlockProg β α} {d d' : Nat → β} {us : List (Event β)} {e : Event β}
  {q : BlockProg β α}

lemma next_kind (h : p.next d = some (e, q)) : p.pending = some e.kind := by
  cases p with
  | ret a => cases h
  | read n k =>
    cases h
    rfl
  | write n b k =>
    cases h
    rfl

lemma Steps.snoc (h : Steps p d us p')
    (hn : p'.next (Event.applyAll us d) = some (e, q)) : Steps p d (us ++ [e]) q := by
  induction us generalizing p d with
  | nil =>
    obtain rfl := h
    exact ⟨q, hn, rfl⟩
  | cons e' us ih =>
    obtain ⟨q', hq', hrest⟩ := h
    exact ⟨q', hq', ih hrest hn⟩

/-- A program that has ended has been executed. -/
lemma Steps.exec {a : α} (h : Steps p d us (.ret a)) : p.exec d = (a, Event.applyAll us d) := by
  induction us generalizing p d with
  | nil =>
    obtain rfl := h
    rfl
  | cons e us ih =>
    obtain ⟨q, hq, hrest⟩ := h
    cases p with
    | ret a' => cases hq
    | read n k =>
      cases hq
      have hexec := ih hrest
      exact hexec
    | write n b k =>
      cases hq
      have hexec := ih hrest
      exact hexec

/-- Only the blocks that are read matter. -/
lemma Steps.congr (h : Steps p d us p') (hd : ∀ n b, Event.read n b ∈ us → d' n = d n) :
    Steps p d' us p' := by
  induction us generalizing p d d' with
  | nil => exact h
  | cons e us ih =>
    obtain ⟨q, hq, hrest⟩ := h
    refine ⟨q, ?_, ih hrest fun n b hb => ?_⟩
    · cases p with
      | ret a => cases hq
      | read n k =>
        have hsame : d' n = d n := by
          cases hq
          exact hd n _ mem_cons_self
        rw [next, hsame]
        exact hq
      | write n b k => exact hq
    · exact Event.apply_congr (hd n b (mem_cons_of_mem e hb))

/-- What a program saw last of a block is what it left there. -/
lemma Steps.lastSeen (h : Steps p d us p') {b : β} (hb : Event.lastSeen n us = some b) :
    Event.applyAll us d n = b := by
  induction us generalizing p d with
  | nil => cases hb
  | cons e us ih =>
    obtain ⟨q, hq, hrest⟩ := h
    rw [Event.lastSeen] at hb
    cases hl : Event.lastSeen n us with
    | some b' =>
      rw [hl] at hb
      cases hb
      exact ih hrest hl
    | none =>
      rw [hl] at hb
      rw [Event.applyAll_cons, Event.applyAll_of_no_write (Event.no_write_of_lastSeen hl)]
      by_cases hp : e.place = n
      · rw [if_pos hp] at hb
        cases hb
        subst hp
        cases p with
        | ret a => cases hq
        | read m k =>
          cases hq
          rfl
        | write m b' k =>
          cases hq
          exact update_self _ _ _
      · rw [if_neg hp] at hb
        cases hb

end BlockProg

/-! ## The system -/

variable {β α : Type}

/-- An operation in progress: the whole program, what remains of it, and its transfers so far. -/
structure Running (β α : Type) where
  start : BlockProg β α
  now : BlockProg β α
  used : List (Event β)

/-- A task: the results of its finished operations, and the one in progress. -/
structure Worker (β α : Type) where
  results : List α
  run : Option (Running β α)

/-- A finished operation. -/
structure Finished (β α : Type) where
  start : BlockProg β α
  result : α
  used : List (Event β)

/-- The device, the two tasks, and the finished operations in the order in which they ended. -/
structure World (β α : Type) where
  disk : Nat → β
  worker : Bool → Worker β α
  log : List (Finished β α)

namespace World

/-- A task chooses its next operation from the results it has seen. -/
abbrev Jobs (β α : Type) := Bool → List α → Option (BlockProg β α)

/-- Task `t` gets into the state `x`. -/
def setWorker (w : World β α) (t : Bool) (x : Worker β α) : World β α :=
  { w with worker := update w.worker t x }

/-- The transfers of the operation in progress. -/
def used (w : World β α) (t : Bool) : List (Event β) :=
  match (w.worker t).run with
  | none => []
  | some r => r.used

/-- One step of task `t`: it starts an operation, makes a transfer, or ends the operation. -/
def step (jobs : Jobs β α) (w : World β α) (t : Bool) : World β α :=
  match (w.worker t).run with
  | none =>
    match jobs t (w.worker t).results with
    | none => w
    | some p => w.setWorker t ⟨(w.worker t).results, some ⟨p, p, []⟩⟩
  | some r =>
    match r.now with
    | .ret a =>
      { w.setWorker t ⟨(w.worker t).results ++ [a], none⟩ with
        log := w.log ++ [⟨r.start, a, r.used⟩] }
    | .read n k =>
      w.setWorker t ⟨(w.worker t).results,
        some ⟨r.start, k (some (w.disk n)), r.used ++ [.read n (w.disk n)]⟩⟩
    | .write n b k =>
      { w.setWorker t ⟨(w.worker t).results, some ⟨r.start, k true, r.used ++ [.write n b]⟩⟩ with
        disk := update w.disk n b }

/-- The transfer task `t` is about to make. -/
def pending (w : World β α) (t : Bool) : Option Transfer := (w.worker t).run.bind fun r => r.now.pending

/-- Task `t` may go on: its next transfer does not clash with one the unfinished operation of the other
task has already made. -/
def Separate (w : World β α) (t : Bool) : Prop :=
  ∀ tr ∈ w.pending t, ∀ e ∈ w.used (!t), ¬ tr.Clash e.kind
deriving Decidable

/-- Nothing done yet. -/
def Start (d : Nat → β) (w : World β α) : Prop := w = ⟨d, fun _ => ⟨[], none⟩, []⟩

/-- No operation is in progress. -/
def Quiet (w : World β α) : Prop := ∀ t, (w.worker t).run = none

instance (w : World β α) : Decidable w.Quiet :=
  decidable_of_iff (∀ t, (w.worker t).run.isNone = true)
    (forall_congr' fun _ => Option.isNone_iff_eq_none)

/-- The finished operations, one after the other and each with the transfers it made. -/
inductive Replay (d : Nat → β) : List (Finished β α) → (Nat → β) → Prop
  | nil : Replay d [] d
  | snoc {log : List (Finished β α)} {d' : Nat → β} {f : Finished β α} : Replay d log d' →
      BlockProg.Steps f.start d' f.used (.ret f.result) →
      Replay d (log ++ [f]) (Event.applyAll f.used d')

/-- Programs executed one after the other. -/
def execAll (ps : List (BlockProg β α)) (d : Nat → β) : Nat → β := ps.foldl (fun d p => (p.exec d).2) d

lemma Replay.execAll {d d' : Nat → β} {log : List (Finished β α)} (h : Replay d log d') :
    execAll (log.map Finished.start) d = d' := by
  induction h with
  | nil => rfl
  | @snoc log d' f _ hs ih =>
    have hlast : World.execAll ((log ++ [f]).map Finished.start) d =
        (f.start.exec (World.execAll (log.map Finished.start) d)).2 := by
      rw [World.execAll, map_append, foldl_append]
      rfl
    rw [hlast, ih, hs.exec]

/-! ## The invariant -/

/-- The operations in progress run as if they were alone after the finished ones. -/
structure Inv (d₀ : Nat → β) (w : World β α) (d : Nat → β) : Prop where
  replay : Replay d₀ w.log d
  steps : ∀ t, ∀ r ∈ (w.worker t).run, BlockProg.Steps r.start d r.used r.now
  apart : Event.Apart (w.used true) (w.used false)
  disk : w.disk = Event.applyAll (w.used true) (Event.applyAll (w.used false) d)

variable {d₀ d : Nat → β} {w w' : World β α} {jobs : Jobs β α} {r : Running β α}
 {e : Event β} {q : BlockProg β α}

lemma Inv.apart_other (h : Inv d₀ w d) (t : Bool) : Event.Apart (w.used t) (w.used (!t)) := by
  cases t with
  | true => exact h.apart
  | false => exact h.apart.symm

lemma Inv.disk_eq (h : Inv d₀ w d) (t : Bool) :
    w.disk = Event.applyAll (w.used t) (Event.applyAll (w.used (!t)) d) := by
  cases t with
  | true => exact h.disk
  | false => exact h.disk.trans (h.apart.comm d)

/-- The invariant, seen from one of the tasks. -/
lemma Inv.of_task (t : Bool) (hr : Replay d₀ w.log d)
    (hs : ∀ r ∈ (w.worker t).run, BlockProg.Steps r.start d r.used r.now)
    (hs' : ∀ r ∈ (w.worker (!t)).run, BlockProg.Steps r.start d r.used r.now)
    (ha : Event.Apart (w.used t) (w.used (!t)))
    (hd : w.disk = Event.applyAll (w.used t) (Event.applyAll (w.used (!t)) d)) : Inv d₀ w d := by
  cases t with
  | true =>
    refine ⟨hr, fun u => ?_, ha, hd⟩
    cases u with
    | true => exact hs
    | false => exact hs'
  | false =>
    refine ⟨hr, fun u => ?_, ha.symm, hd.trans (ha.comm d)⟩
    cases u with
    | true => exact hs'
    | false => exact hs

lemma inv_start (h : Start d w) : Inv d w d := by
  obtain rfl := h
  exact ⟨.nil, fun _ _ hr => (Option.some_ne_none _ hr.symm).elim, forall_mem_nil _, rfl⟩

section
variable (w : World β α) (t : Bool) (x : Worker β α)

lemma setWorker_self : (w.setWorker t x).worker t = x :=
  update_self _ _ _

lemma setWorker_other : (w.setWorker t x).worker (!t) = w.worker (!t) := by
  cases t with
  | true => rfl
  | false => rfl

end

lemma used_eq (h : (w.worker t).run = some r) : w.used t = r.used := by
  rw [used, h]

lemma used_none (h : (w.worker t).run = none) : w.used t = [] := by
  rw [used, h]

lemma used_congr (h : w'.worker t = w.worker t) : w'.used t = w.used t := by
  rw [used, used, h]

/-- A transfer that clashes with nothing the other task has used sees, and changes, the device as if
the task were alone. -/
lemma Inv.transfer (h : Inv d₀ w d) (hr : (w.worker t).run = some r)
    (hsep : w.Separate t) (hn : r.now.next w.disk = some (e, q))
    (hlog : w'.log = w.log) (hdisk : w'.disk = e.apply w.disk)
    (hself : w'.worker t = ⟨(w.worker t).results, some ⟨r.start, q, r.used ++ [e]⟩⟩)
    (hother : w'.worker (!t) = w.worker (!t)) : Inv d₀ w' d := by
  have hkind := BlockProg.next_kind hn
  have hclear : ∀ e' ∈ w.used (!t), ¬ e.kind.Clash e'.kind := by
    refine hsep e.kind ?_
    rw [pending, hr]
    exact hkind
  have hused := used_eq hr
  have hused' : w'.used t = r.used ++ [e] := by rw [used, hself]
  -- the block is as this task left it
  have hsame : w.disk e.place = Event.applyAll r.used d e.place := by
    rw [h.disk_eq t, hused]
    refine Event.applyAll_congr (Event.applyAll_of_no_write (fun e' he' hk => hclear e' he' ?_) d)
    rw [hk]
    cases e with
    | read n b => exact rfl
    | write n b => exact rfl
  have hnext : r.now.next (Event.applyAll r.used d) = some (e, q) := by
    cases hp : r.now with
    | ret a =>
      rw [hp] at hn
      cases hn
    | read n k =>
      rw [hp] at hn
      cases hn
      rw [BlockProg.next, ← show w.disk n = Event.applyAll r.used d n from hsame]
    | write n b k =>
      rw [hp] at hn
      exact hn
  refine Inv.of_task t (hlog ▸ h.replay) ?_ ?_ ?_ ?_
  · intro r' hr'
    rw [hself] at hr'
    cases hr'
    exact (h.steps t r hr).snoc hnext
  · rw [hother]
    exact h.steps (!t)
  · rw [hused', used_congr hother]
    intro e1 he1 e2 he2
    rcases mem_append.mp he1 with he1 | he1
    · exact h.apart_other t e1 (hused ▸ he1) e2 he2
    · obtain rfl := mem_singleton.mp he1
      exact hclear e2 he2
  · rw [hdisk, hused', used_congr hother, Event.applyAll_append, h.disk_eq t, hused]
    rfl

/-- The end of an operation: it is the next one of the log, and the other task goes on from there. -/
lemma Inv.finish (h : Inv d₀ w d) (hr : (w.worker t).run = some r) {a : α}
    (ha : r.now = .ret a) (hlog : w'.log = w.log ++ [⟨r.start, a, r.used⟩])
    (hdisk : w'.disk = w.disk) (hself : (w'.worker t).run = none)
    (hother : w'.worker (!t) = w.worker (!t)) : Inv d₀ w' (Event.applyAll r.used d) := by
  have hused := used_eq hr
  have hsteps := h.steps t r hr
  rw [ha] at hsteps
  have hapart := h.apart_other t
  rw [hused] at hapart
  refine Inv.of_task t ?_ ?_ ?_ ?_ ?_
  · rw [hlog]
    exact .snoc (f := ⟨r.start, a, r.used⟩) h.replay hsteps
  · intro r' hr'
    rw [hself] at hr'
    cases hr'
  · intro r' hr'
    rw [hother] at hr'
    refine (h.steps (!t) r' hr').congr fun n b hb => ?_
    -- what the other task has read was not written by this one
    refine Event.applyAll_of_no_write ?_ d
    have hin : Event.read n b ∈ w.used (!t) := by
      rw [used_eq hr']
      exact hb
    exact hapart.symm.no_write hin
  · rw [used_none hself]
    exact forall_mem_nil _
  · rw [hdisk, used_none hself, used_congr hother, h.disk_eq t, hused]
    exact hapart.comm d

/-- **One step** keeps the invariant. -/
theorem inv_step (h : Inv d₀ w d) (hsep : w.Separate t) : ∃ d', Inv d₀ (w.step jobs t) d' := by
  rw [step]
  cases hr : (w.worker t).run with
  | none =>
    cases hj : jobs t (w.worker t).results with
    | none => exact ⟨d, h⟩
    | some p =>
      have hself := setWorker_self w t ⟨(w.worker t).results, some ⟨p, p, []⟩⟩
      have hother := setWorker_other w t ⟨(w.worker t).results, some ⟨p, p, []⟩⟩
      have hold := used_none hr
      refine ⟨d, Inv.of_task t h.replay ?_ ?_ ?_ ?_⟩
      · intro r hr'
        rw [hself] at hr'
        cases hr'
        exact rfl
      · rw [hother]
        exact h.steps (!t)
      · rw [used, hself]
        exact forall_mem_nil _
      · rw [used, hself, used_congr hother]
        have hdisk := h.disk_eq t
        rw [hold] at hdisk
        exact hdisk
  | some r =>
    dsimp only
    cases hn : r.now with
    | ret a =>
      refine ⟨_, h.finish hr hn rfl rfl ?_ (setWorker_other w t _)⟩
      rw [setWorker_self]
    | read n k =>
      refine ⟨d, h.transfer hr hsep (e := .read n (w.disk n)) (q := k (some (w.disk n))) ?_ rfl rfl
        (setWorker_self w t _) (setWorker_other w t _)⟩
      rw [hn]
      rfl
    | write n b k =>
      refine ⟨d, h.transfer hr hsep (e := .write n b) (q := k true) ?_ rfl rfl
        (setWorker_self w t _) (setWorker_other w t _)⟩
      rw [hn]
      rfl

/-- **Every run of separate steps** keeps the invariant. -/
theorem inv_reach (h : Reach (Start d₀) Separate (step jobs) w) : ∃ d, Inv d₀ w d :=
  Reach.invariant (fun w => ∃ d, Inv d₀ w d) (fun _ hs => ⟨d₀, inv_start hs⟩)
    (fun _ _ ⟨_, hi⟩ ha => inv_step hi ha) h

/-- When no operation is in progress, the device is what the finished ones leave behind. -/
lemma Inv.quiet (h : Inv d₀ w d) (hq : w.Quiet) : w.disk = d := by
  rw [h.disk, used_none (hq true), used_none (hq false)]
  rfl

/-- What an operation in progress saw last of a block is still there. -/
lemma Inv.current (h : Inv d₀ w d) {b : β} (hb : Event.lastSeen n (w.used t) = some b) :
    w.disk n = b := by
  cases hr : (w.worker t).run with
  | none =>
    rw [used_none hr] at hb
    cases hb
  | some r =>
    rw [used_eq hr] at hb
    obtain ⟨e, he, rfl⟩ := Event.place_of_lastSeen hb
    have hapart := h.apart_other t
    rw [used_eq hr] at hapart
    rw [h.disk_eq t, used_eq hr,
      Event.applyAll_congr (Event.applyAll_of_no_write (hapart.no_write he) d)]
    exact (h.steps t r hr).lastSeen hb

end World
end FermiOs.Library
