import FermiOs.Mm.HeapRun

/-!
# What a release leaves behind

Two facts about `kfree` over whole histories of the kernel heap. A release merges all that can be
merged: no two neighbours of the list are free and touch, and when nothing is in use any more each
region lies inside one free block, although the list is in the order in which regions arrived.

A pointer that was released stays harmless. Its header may be inside a larger block by now, or inside
the payload of another, but no later header is written over its magic number with that of a block in
use unless the pointer is handed out again, so that `kfree` refuses it.
-/

namespace FermiOs
open Library List Function Heap
variable {b : Block} {bs l r : List Block}

namespace Heap

lemma Ends.at {E : Nat → Prop} (h : Ends E (l ++ b :: r)) :
    E (header.stop b) ∨ ∃ c ∈ r.head?, header.stop b = c.addr := by
  induction l with
  | nil => exact h.1
  | cons _ l ih => exact ih h.2

/-- Where all blocks are free and none can be merged, a block ends inside no region. -/
lemma Tidy.whole {h : Heap} (hr : h.Repr bs) (ht : h.Tidy bs) (hfree : ∀ b ∈ bs, b.free = true)
    (hdone : bs.IsChain fun a b => ¬ Mergeable a b) {reg : Nat × Nat} (hreg : reg ∈ h.regions) :
    ∃ b ∈ bs, b.addr ≤ reg.1 ∧ reg.1 + reg.2 ≤ header.stop b := by
  have hpos := ht.pos reg hreg
  obtain ⟨b, hb, ⟨hlo, hhi⟩, -⟩ := (hr.tiles reg.1).mpr ⟨reg, hreg, le_rfl, by omega⟩
  have hhi : reg.1 < header.stop b := hhi
  refine ⟨b, hb, hlo, ?_⟩
  by_contra hshort
  obtain ⟨l, r, rfl⟩ := append_of_mem hb
  rcases ht.ends.at with ⟨reg', hreg', hend⟩ | ⟨c, hc, hnext⟩
  · -- another region would end inside this one
    have hpos' := ht.pos reg' hreg'
    have hne : reg ≠ reg' := by
      rintro rfl
      omega
    have hsymm : Std.Symm fun r s : Nat × Nat => r.1 + r.2 ≤ s.1 ∨ s.1 + s.2 ≤ r.1 := ⟨fun _ _ => Or.symm⟩
    have hapart := ht.apart.forall hreg hreg' hne
    omega
  · obtain ⟨r, rfl⟩ := head?_eq_some_iff.mp hc
    refine (isChain_cons_cons.mp hdone.right_of_append).1 ⟨hfree b hb, hfree c ?_, hnext⟩
    exact mem_append_right l (mem_cons_of_mem b mem_cons_self)

end Heap

namespace HeapRun

/-- **A release merges everything**: no two neighbours of the list are free and touch, and once nothing
is in use each region lies inside one free block. -/
theorem kfree_merges_all {s : HeapRun} (h : Reach Start Allowed step s) {e : Nat × Nat}
    (he : e ∈ s.live) :
    ∃ bs, (s.step (.kfree e.1)).heap.Repr bs ∧ (bs.IsChain fun a b => ¬ Mergeable a b) ∧
      ((s.step (.kfree e.1)).live = [] → ∀ reg ∈ (s.step (.kfree e.1)).heap.regions,
        ∃ b ∈ bs, b.free = true ∧ b.addr ≤ reg.1 ∧ reg.1 + reg.2 ≤ b.addr + 32 + b.size) := by
  obtain ⟨bs, htracks⟩ := reach_tracks h
  have hin : e.1 ∈ s.live.map Prod.fst := mem_map_of_mem he
  obtain ⟨⟨bs, ⟨hr, ho, ht⟩, hdone⟩, -⟩ := kfree_step htracks (.inr (.inl hin))
  refine ⟨bs, hr, hdone hin, fun hnil reg hreg => ?_⟩
  have hfree : ∀ b ∈ bs, b.free = true := by
    intro b hb
    by_contra hused
    have hentry := ho.entry b hb (Bool.eq_false_of_not_eq_true hused)
    rw [hnil] at hentry
    exact not_mem_nil hentry
  obtain ⟨b, hb, hcovers⟩ := ht.whole hr hfree (hdone hin) hreg
  exact ⟨b, hb, hfree b hb, hcovers⟩

/-- The only block in use, in the second of two regions, is released. -/
theorem kfree_merges_all_across :
    ((acrossOps.take 1).foldl step booted).live = [(0xFFFF000040200020, 1048560)] ∧
      ∃ bs, ((acrossOps.take 2).foldl step booted).heap.Repr bs ∧
        (bs.IsChain fun a b => ¬ Mergeable a b) ∧
        (((acrossOps.take 2).foldl step booted).live = [] →
          ∀ reg ∈ ((acrossOps.take 2).foldl step booted).heap.regions,
            ∃ b ∈ bs, b.free = true ∧ b.addr ≤ reg.1 ∧ reg.1 + reg.2 ≤ b.addr + 32 + b.size) :=
  have hreach : Reach Start Allowed step ((acrossOps.take 1).foldl step booted) :=
    (Reach.start booted_start).obeys (by decide +kernel)
  have hlive : ((acrossOps.take 1).foldl step booted).live = [(0xFFFF000040200020, 1048560)] := by
    decide +kernel
  ⟨hlive, kfree_merges_all hreach (e := (0xFFFF000040200020, 1048560)) (hlive ▸ mem_singleton_self _)⟩

end HeapRun

/-! ## Pointers of the past -/

/-- A state, and every pointer `kmalloc` has returned. -/
structure HeapHistory where
  run : HeapRun
  past : List Nat

namespace HeapHistory
open HeapRun

section
variable (s : HeapHistory)

def step : HeapOp → HeapHistory
  | .kmalloc n first second =>
    let ptr := (s.run.heap.kmalloc n first second).1
    ⟨s.run.step (.kmalloc n first second), if ptr = 0 then s.past else ptr :: s.past⟩
  | op => ⟨s.run.step op, s.past⟩

/-- A pointer of the past that is not in use. -/
def Stale (ptr : Nat) : Prop := ptr ∈ s.past ∧ ptr ∉ s.run.live.map Prod.fst
deriving Decidable

/-- As for runs, but any pointer of the past may be released, and no store leaves the magic number of a
block in use at the header of a stale pointer. -/
def Allowed : HeapOp → Prop
  | .kmalloc n first second => s.run.Allowed (.kmalloc n first second)
  | .kfree ptr => s.run.Allowed (.kfree ptr) ∨ ptr ∈ s.past
  | .write a v => s.run.Allowed (.write a v) ∧ ∀ ptr ∈ s.past, ptr ∉ s.run.live.map Prod.fst →
      magic (update s.run.heap.mem a v) (blockOf ptr) ≠ blockMagicAlloc

/-- After `heap_init`. -/
def Start : Prop := s.run.Start ∧ s.past = []

end

/-- Pointers of the past have headers that are aligned, and those of stale ones do not look like the
header of a block in use. -/
structure Inv (s : HeapHistory) : Prop where
  tracks : ∃ bs, s.run.Tracks bs
  aligned : ∀ ptr ∈ s.past, ∃ c, ptr = c + 32 ∧ c % 16 = 0 ∧ c < 2 ^ 64
  stale : ∀ ptr, s.Stale ptr → magic s.run.heap.mem (blockOf ptr) ≠ blockMagicAlloc

variable {s : HeapHistory} {op : HeapOp}

lemma step_run (s : HeapHistory) (op : HeapOp) : (s.step op).run = s.run.step op := by
  cases op <;> rfl

/-- A pointer that enters the past is in use. -/
lemma mem_past {ptr : Nat} (h : ptr ∈ (s.step op).past) :
    ptr ∈ s.past ∨ ptr ∈ (s.step op).run.live.map Prod.fst := by
  cases op with
  | kmalloc n first second =>
    rw [step_run, HeapRun.step]
    dsimp only [step] at h ⊢
    split_ifs at h ⊢
    · exact .inl h
    · rw [map_cons, mem_cons]
      exact (mem_cons.mp h).symm.imp_right .inl
  | kfree _ => exact .inl h
  | write _ _ => exact .inl h

/-- A stale pointer is one the checks of `kfree` refuse. -/
lemma Inv.allowed (h : s.Inv) (ha : s.Allowed op) : s.run.Allowed op := by
  cases op with
  | kmalloc _ _ _ => exact ha
  | kfree ptr =>
    rcases ha with ha | hpast
    · exact ha
    by_cases hlive : ptr ∈ s.run.live.map Prod.fst
    · exact .inr (.inl hlive)
    · exact .inr (.inr (.inr (h.stale ptr ⟨hpast, hlive⟩)))
  | write _ _ => exact ha.1

/-- **One operation** keeps stale pointers stale, or hands them out again. -/
lemma inv_step (h : s.Inv) (ha : s.Allowed op) : (s.step op).Inv := by
  have hallowed := h.allowed ha
  have htracks : ∃ bs, (s.step op).run.Tracks bs := by
    rw [step_run]
    exact tracks_step h.tracks hallowed
  have hal : ∀ ptr ∈ (s.step op).past, ∃ c, ptr = c + 32 ∧ c % 16 = 0 ∧ c < 2 ^ 64 := by
    intro ptr hptr
    rcases mem_past hptr with hold | hnew
    · exact h.aligned ptr hold
    obtain ⟨bs, htr⟩ := htracks
    obtain ⟨e, he, rfl⟩ := mem_map.mp hnew
    obtain ⟨b, hb, -, haddr, -⟩ := htr.owns.block e he
    have hfit := htr.repr.fits b hb
    exact ⟨b.addr, haddr, hfit.aligned, by have := hfit.below; omega⟩
  refine ⟨htracks, hal, fun ptr hstale hmagic => ?_⟩
  obtain ⟨c, rfl, hc, hlt⟩ := hal ptr hstale.1
  have hpast := (mem_past hstale.1).resolve_right hstale.2
  have hdead := hstale.2
  rw [step_run] at hdead hmagic
  -- the header was stale before, and looked like that of a block in use
  have hretires : s.run.Retires (s.run.step op) → False := by
    intro hret
    rw [blockOf_add hlt] at hmagic
    obtain ⟨hm, hn⟩ := hret c hc hmagic hdead
    exact h.stale _ ⟨hpast, hn⟩ (by rwa [blockOf_add hlt])
  obtain ⟨bs, htr⟩ := h.tracks
  cases op with
  | kmalloc n first second => exact hretires (kmalloc_step htr hallowed.2).2
  | kfree ptr => exact hretires (kfree_step htr hallowed).2
  | write a v => exact ha.2 _ hpast hdead hmagic

/-- **Releasing a stale pointer changes nothing**, in every history. -/
theorem kfree_stale {ptr : Nat} (h : Reach Start Allowed step s) (hp : s.Stale ptr) :
    s.run.heap.kfree ptr = s.run.heap := by
  have hinv : s.Inv := by
    refine Reach.invariant Inv ?_ (fun _ _ hi ha => inv_step hi ha) h
    rintro s ⟨hs, hnil⟩
    refine ⟨tracks_start hs, fun ptr hptr => ?_, fun ptr hptr => ?_⟩
    · rw [hnil] at hptr
      exact (not_mem_nil hptr).elim
    · have hin := hptr.1
      rw [hnil] at hin
      exact (not_mem_nil hin).elim
  exact kfree_refused (.inr (.inr (hinv.stale ptr hp)))

instance Allowed.decidable (s : HeapHistory) (op : HeapOp) : Decidable (s.Allowed op) :=
  match op with
  | .kmalloc .. | .kfree _ | .write .. => by dsimp only [Allowed]; infer_instance

/-- Two blocks are handed out and released; the header of the second ends up inside a free block. -/
def mergedOps : List HeapOp :=
  [.kmalloc 100 none none, .kmalloc 100 none none, .kfree 0xFFFF000040100020,
    .kfree 0xFFFF0000401000B0]

theorem kfree_stale_merged : (mergedOps.foldl step ⟨booted, []⟩).Stale 0xFFFF0000401000B0 ∧
      (mergedOps.foldl step ⟨booted, []⟩).run.heap.kfree 0xFFFF0000401000B0 =
        (mergedOps.foldl step ⟨booted, []⟩).run.heap :=
  have hreach : Reach Start Allowed step (mergedOps.foldl step ⟨booted, []⟩) :=
    Reach.obeys (.start ⟨booted_start, rfl⟩) (by decide +kernel)
  have hstale : (mergedOps.foldl step ⟨booted, []⟩).Stale 0xFFFF0000401000B0 := by decide +kernel
  ⟨hstale, kfree_stale hreach hstale⟩

end HeapHistory
end FermiOs
