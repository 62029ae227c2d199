import FermiOs.Library.Interleave
import FermiOs.Fs.Fat32.Refused

/-!
# Two tasks on one volume

Calls run with interrupts enabled and only single transfers are locked, so two tasks that create and
write files alternate between any two transfers of sectors. Nothing protects the sequences that read a
sector of the table or of a directory, change it and write it back: both tasks can find the same
cluster free.

What a volume needs is that no task touches a sector the unfinished call of the other has used, unless
both only read it (`World.Separate`). Then the calls run as if one after the other.
-/

namespace FermiOs.Fat32
open Library List Function

/-- A call on a file of the volume: `fat32_create`, or `fat32_file_write` with the path and the first
cluster of the open file. -/
inductive FileOp
  | create (path : List UInt8)
  | write (rel : Option (List UInt8)) (first offset : Nat) (data : List UInt8)

/-- Its transfers. -/
def FileOp.prog (v : Vol) : FileOp → Io Ret
  | .create path => (fat32Create v path).bind fun ok => .ret (if ok then .ok 0 else .err)
  | .write rel first offset data => fat32FileWrite v rel first offset data

/-- Two tasks; each chooses its next call from the results it has seen. -/
def jobs (v : Vol) (ops : Bool → List Ret → Option FileOp) : World.Jobs Sector Ret := fun t results =>
  (ops t results).map (FileOp.prog v)

/-! ## Clusters handed out -/

/-- The entry of cluster `c` is zero in this sector of the table. -/
def EntryFree (c : Nat) (b : Sector) : Prop := le32 b (fatOffset c) % 2 ^ 28 = 0
deriving Decidable

/-- A sector of the table is read and written back with the entry of `c`, which was free, in use. -/
def Hands (v : Vol) (c : Nat) : Event Sector → List (Event Sector) → Prop
  | .read n b, .write m b' :: _ => n = fatSector v c ∧ m = n ∧ EntryFree c b ∧ ¬ EntryFree c b'
  | _, _ => False

/-- Cluster `c` is handed to a call that makes these transfers. -/
def Takes (v : Vol) (c : Nat) : List (Event Sector) → Prop
  | [] => False
  | e :: us => Hands v c e us ∨ Takes v c us

/-- A transfer clears the entry of `c`. -/
def ClearsEntry (v : Vol) (c : Nat) (d : Disk) : Event Sector → Prop
  | .read _ _ => False
  | .write n b => n = fatSector v c ∧ ¬ EntryFree c (d n) ∧ EntryFree c b

/-- One of the transfers clears the entry of `c`. -/
def Clears (v : Vol) (c : Nat) : Disk → List (Event Sector) → Prop
  | _, [] => False
  | d, e :: us => ClearsEntry v c d e ∨ Clears v c (e.apply d) us

section
variable {v : Vol} {c : Nat} {d : Disk} {us : List (Event Sector)} {p p' : Io Ret}

lemma used_apply {e : Event Sector} (hc : ¬ ClearsEntry v c d e)
    (hd : ¬ EntryFree c (d (fatSector v c))) : ¬ EntryFree c (e.apply d (fatSector v c)) := by
  cases e with
  | read n b => exact hd
  | write n b =>
    show ¬ EntryFree c (update d n b (fatSector v c))
    by_cases hn : fatSector v c = n
    · subst hn
      rw [update_self]
      exact fun hf => hc ⟨rfl, hd, hf⟩
    · rw [update_of_ne hn]
      exact hd

/-- An entry in use that no transfer clears stays in use. -/
lemma used_applyAll (hc : ¬ Clears v c d us) (hd : ¬ EntryFree c (d (fatSector v c))) :
    ¬ EntryFree c (Event.applyAll us d (fatSector v c)) := by
  induction us generalizing d with
  | nil => exact hd
  | cons e us ih => exact ih (fun h => hc (.inr h)) (used_apply (fun h => hc (.inl h)) hd)

variable (hs : BlockProg.Steps p d us p')
include hs

/-- A cluster in use is not handed out. -/
lemma not_takes (hc : ¬ Clears v c d us) (hd : ¬ EntryFree c (d (fatSector v c))) : ¬ Takes v c us := by
  induction us generalizing p d with
  | nil => exact fun h => h
  | cons e us ih =>
    obtain ⟨q, hq, hrest⟩ := hs
    rintro (hh | ht)
    · -- the sector was read as it is on the disk
      cases p with
      | ret a => cases hq
      | read n k =>
        cases hq
        cases us with
        | nil => exact hh
        | cons e us =>
          cases e with
          | read m b => exact hh
          | write m b =>
            obtain ⟨rfl, -, hfree, -⟩ := hh
            exact hd hfree
      | write n b k =>
        cases hq
        exact hh
    · exact ih hrest (fun h => hc (.inr h)) (used_apply (fun h => hc (.inl h)) hd) ht

/-- A cluster that was handed out is in use. -/
lemma used_of_takes (hc : ¬ Clears v c d us)
    (ht : Takes v c us) : ¬ EntryFree c (Event.applyAll us d (fatSector v c)) := by
  induction us generalizing p d with
  | nil => exact ht.elim
  | cons e us ih =>
    obtain ⟨q, hq, hrest⟩ := hs
    have hc' : ¬ Clears v c (e.apply d) us := fun h => hc (.inr h)
    rcases ht with hh | ht
    · cases e with
      | write n b => exact hh.elim
      | read n b =>
        cases us with
        | nil => exact hh.elim
        | cons e us =>
          cases e with
          | read m b' => exact hh.elim
          | write m b' =>
            obtain ⟨rfl, rfl, -, hused⟩ := hh
            refine used_applyAll (d := update d (fatSector v c) b')
              (fun h => hc' (.inr h)) ?_
            rw [update_self]
            exact hused
    · exact ih hrest hc' ht

end

/-- No call of the log clears the entry of `c`. -/
def Spared (v : Vol) (c : Nat) (d : Disk) (log : List (Finished Sector Ret)) : Prop :=
  ∀ l f r, log = l ++ f :: r → ¬ Clears v c (World.execAll (l.map Finished.start) d) f.used

/-- Among calls that run one after the other no cluster is handed out twice. -/
lemma replay_takes {v : Vol} {c : Nat} {d₀ d : Disk} {log : List (Finished Sector Ret)}
    (h : World.Replay d₀ log d) (hsp : Spared v c d₀ log) :
    (log.Pairwise fun f g => ¬ (Takes v c f.used ∧ Takes v c g.used)) ∧
      ((∃ f ∈ log, Takes v c f.used) → ¬ EntryFree c (d (fatSector v c))) := by
  induction h with
  | nil => exact ⟨.nil, fun ⟨f, hf, _⟩ => (not_mem_nil hf).elim⟩
  | @snoc log d f hr hs ih =>
    have hbefore : Spared v c d₀ log := by
      intro l g r hlog
      exact hsp l g (r ++ [f]) (by rw [hlog, append_assoc, cons_append])
    have hlast : ¬ Clears v c d f.used := by
      have := hsp log f [] rfl
      rwa [hr.execAll] at this
    obtain ⟨hpair, hused⟩ := ih hbefore
    refine ⟨pairwise_append.mpr ⟨hpair, pairwise_singleton _ _, ?_⟩, ?_⟩
    · rintro g hg f' hf' ⟨htg, htf⟩
      obtain rfl := mem_singleton.mp hf'
      exact not_takes hs hlast (hused ⟨g, hg, htg⟩) htf
    rintro ⟨g, hg, htg⟩
    rcases mem_append.mp hg with hg | hg
    · exact used_applyAll hlast (hused ⟨g, hg, htg⟩)
    · obtain rfl := mem_singleton.mp hg
      exact used_of_takes hs hlast htg

/-! ## Serial runs -/

/-- The calls do not disturb each other: no cluster is handed to two of them while its entry is in use,
an unfinished call finds every sector it has used as it saw it last, so that what it writes back loses
nothing, and when no call is in progress the volume is the result of the finished calls, one after the
other. -/
structure Serial (v : Vol) (d₀ : Disk) (w : World Sector Ret) : Prop where
  clusters : ∀ c, Spared v c d₀ w.log →
    w.log.Pairwise fun f g => ¬ (Takes v c f.used ∧ Takes v c g.used)
  updates : ∀ t n b, Event.lastSeen n (w.used t) = some b → w.disk n = b
  order : w.Quiet → ∃ ps : List (Io Ret), ps.Perm (w.log.map Finished.start) ∧
    w.disk = World.execAll ps d₀

/-- An empty volume. -/
def emptyVolume : Disk := fun n => if n = 1 then sectorOf (tableBytes 2 fatMark) else sectorOf []

/-- One task creates `A`, the other `B`. -/
def twoCreations : Bool → List Ret → Option FileOp
  | false, [] => some (.create [65])
  | true, [] => some (.create [66])
  | _, _ => none

/-- Nothing done yet. -/
def atRest : World Sector Ret := ⟨emptyVolume, fun _ => ⟨[], none⟩, []⟩

lemma atRest_start : World.Start emptyVolume atRest := rfl

/-- The world after a schedule. -/
def after (schedule : List Bool) : World Sector Ret :=
  schedule.foldl (World.step (jobs smallVol twoCreations)) atRest

/-- Both calls are begun; the second waits until the first has ended. -/
def patient : List Bool := [false, true] ++ replicate 7 false ++ replicate 8 true

instance Obeys.instSeparate (w : World Sector Ret) (schedule : List Bool) :
    Decidable (Obeys World.Separate (World.step (jobs smallVol twoCreations)) w schedule) :=
  Obeys.decidable w schedule

instance Hands.decidable (v : Vol) (c : Nat) :
    (e : Event Sector) → (us : List (Event Sector)) → Decidable (Hands v c e us)
  | .read _ _, .write _ _ :: _ => inferInstanceAs (Decidable (_ ∧ _ ∧ _ ∧ ¬ _))
  | .read _ _, [] => inferInstanceAs (Decidable False)
  | .read _ _, .read _ _ :: _ => inferInstanceAs (Decidable False)
  | .write _ _, _ => inferInstanceAs (Decidable False)

instance Takes.decidable (v : Vol) (c : Nat) : (us : List (Event Sector)) → Decidable (Takes v c us)
  | [] => inferInstanceAs (Decidable False)
  | e :: us =>
    haveI := Takes.decidable v c us
    inferInstanceAs (Decidable (Hands v c e us ∨ Takes v c us))

/-- Both tasks have read the table before one of them writes it. -/
def racing : List Bool :=
  replicate 4 false ++ replicate 4 true ++ [false, true] ++ replicate 3 false ++
    replicate 3 true

lemma perm_pair {α : Type} {xs : List α} {a b : α} (h : xs.Perm [a, b]) :
    xs = [a, b] ∨ xs = [b, a] := by
  obtain ⟨x, y, rfl⟩ := length_eq_two.mp h.length_eq
  rcases mem_cons.mp (h.mem_iff.mp mem_cons_self) with rfl | hx
  · obtain rfl := singleton_perm_singleton.mp (h.cons_inv)
    exact .inl rfl
  · obtain rfl := mem_singleton.mp hx
    obtain rfl := singleton_perm_singleton.mp (h.trans (Perm.swap _ _ _)).cons_inv
    exact .inr rfl

end FermiOs.Fat32
