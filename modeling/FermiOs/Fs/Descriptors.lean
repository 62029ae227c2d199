import FermiOs.Library.Run

/-!
# Descriptor tables and open file descriptions

The reference counts of `fs/vfs/vfs.c`. A description (`file_t`) is a heap block that slots of any
number of descriptor tables point at: `fd_open_ex` makes one with a single reference, `fd_table_clone`
shares every description of the source, `fd_close` and `fd_table_destroy` give references back, and
`fd_release` frees the block with the last one. The count is a C `int`, so it is exact only while it
stays below `2 ^ 31`; a table takes 512 bytes, which bounds the number of slots in the machine.
-/

namespace FermiOs.Fds
open Library List Function
variable {f : Nat} {slots : List (Option Nat)}

/-- `MAX_FDS`. -/
def maxFds : Nat := 64

/-- `MEM_SIZE`: 8 GiB. -/
def memSize : Nat := 2 ^ 33

/-- `sizeof(fd_table_t)`. -/
def tableBytes : Nat := maxFds * 8

/-- `file_t`. -/
structure Description where
  vnode : Nat
  offset : Int
  flags : Nat
  refcount : Int

/-- `fd_table_t`: each slot is empty or holds the address of a description. -/
structure Table where
  slots : List (Option Nat)
  size : slots.length = maxFds

/-- The live descriptions by address, and the live tables. -/
structure State where
  files : Nat → Option Description
  tables : List Table

/-- The value a C `int` holds after an operation. -/
def int32 (x : Int) : Int := x.bmod (2 ^ 32)

/-! ## The operations -/

/-- `fd_table_create`: an empty table. -/
def fdTableCreate : Table := ⟨replicate maxFds none, length_replicate⟩

section
variable (files : Nat → Option Description) (f : Nat)

/-- `fd_release`: one reference less; the last one frees the block. -/
def fdRelease : Nat → Option Description :=
  match files f with
  | none => files
  | some d =>
    if 0 < int32 (d.refcount - 1) then
      update files f (some { d with refcount := int32 (d.refcount - 1) })
    else update files f none

/-- `refcount++` on a shared description. -/
def share : Nat → Option Description :=
  match files f with
  | none => files
  | some d => update files f (some { d with refcount := int32 (d.refcount + 1) })

end

/-- The loop of `fd_table_destroy`. -/
def releaseAll : List (Option Nat) → (Nat → Option Description) → Nat → Option Description
  | [], files => files
  | none :: slots, files => releaseAll slots files
  | some f :: slots, files => releaseAll slots (fdRelease files f)

/-- The loop of `fd_table_clone`. -/
def shareAll : List (Option Nat) → (Nat → Option Description) → Nat → Option Description
  | [], files => files
  | none :: slots, files => shareAll slots files
  | some f :: slots, files => shareAll slots (share files f)

/-- `alloc_fd`: the first empty slot. -/
def allocFd (t : Table) : Option Nat :=
  let i := t.slots.findIdx (· == none)
  if i < t.slots.length then some i else none

section
variable (t : Table) (i : Nat) (o : Option Nat)

/-- A slot is written. -/
def Table.set : Table :=
  ⟨t.slots.set i o, by rw [length_set, t.size]⟩

lemma Table.slots_set : (t.set i o).slots = t.slots.set i o := rfl

end

section
variable (s : State) (i : Nat)

/-- `fd_table_destroy` of the table at position `i`. -/
def fdTableDestroy : State :=
  match s.tables[i]? with
  | none => s
  | some t => ⟨releaseAll t.slots s.files, s.tables.eraseIdx i⟩

/-- `fd_table_clone` of the table at position `i`; `granted` is what `kmalloc` answers. -/
def fdTableClone (granted : Bool) : State :=
  match s.tables[i]? with
  | none => s
  | some t => if granted then ⟨shareAll t.slots s.files, t :: s.tables⟩ else s

/-- The end of `fd_open_ex`, after the path has been resolved: `answer` is the block `kmalloc` hands
out, `size` the size of the vnode, where a descriptor opened with `O_APPEND` starts. -/
def fdOpenEx (vnode size flags : Nat) (answer : Option Nat) : State :=
  match s.tables[i]? with
  | none => s
  | some t =>
    match allocFd t, answer with
    | some fd, some a =>
      let d : Description :=
        { vnode := vnode, offset := if flags.testBit 10 then size else 0, flags := flags % 4,
          refcount := 1 }
      ⟨update s.files a (some d), s.tables.set i (t.set fd (some a))⟩
    | _, _ => s

/-- `fd_close`: the slot is cleared, then the reference is given back. -/
def fdClose (fd : Nat) : State :=
  match s.tables[i]? with
  | none => s
  | some t =>
    match t.slots[fd]? with
    | some (some f) => ⟨fdRelease s.files f, s.tables.set i (t.set fd none)⟩
    | _ => s

end

/-- One operation on the tables. -/
inductive Op
  | create (granted : Bool)
  | destroy (i : Nat)
  | clone (i : Nat) (granted : Bool)
  | opens (i vnode size flags : Nat) (answer : Option Nat)
  | close (i fd : Nat)

def step (s : State) : Op → State
  | .create granted => if granted then { s with tables := fdTableCreate :: s.tables } else s
  | .destroy i => fdTableDestroy s i
  | .clone i granted => fdTableClone s i granted
  | .opens i vnode size flags answer => fdOpenEx s i vnode size flags answer
  | .close i fd => fdClose s i fd

/-- What the allocator may answer: a block that is not in use, and a table only while the tables fit
into the memory of the machine. -/
def Allowed (s : State) : Op → Prop
  | .create granted => granted = true → (s.tables.length + 1) * tableBytes ≤ memSize
  | .clone _ granted => granted = true → (s.tables.length + 1) * tableBytes ≤ memSize
  | .opens _ _ _ _ answer => ∀ a ∈ answer, (s.files a).isNone = true
  | .destroy _ => True
  | .close _ _ => True

instance (s : State) (op : Op) : Decidable (Allowed s op) := by
  cases op <;> dsimp only [Allowed] <;> infer_instance

/-- Before the first table is made. -/
def start : State := ⟨fun _ => none, []⟩

/-- The number of slots that point at address `f`. -/
def slotCount (tables : List Table) (f : Nat) : Nat := (tables.flatMap Table.slots).count (some f)

/-- A description exists exactly while a slot points at its address, and its count is their number. -/
def Exact (s : State) : Prop :=
  ∀ f, (s.files f = none ↔ slotCount s.tables f = 0) ∧
    ∀ d, s.files f = some d → d.refcount = slotCount s.tables f

/-! ## Counting references -/

/-- Each description has the count `n` gives it, within the range of the C type. -/
def Balanced (files : Nat → Option Description) (n : Nat → Nat) : Prop :=
  ∀ f, (files f = none → n f = 0) ∧
    ∀ d, files f = some d → d.refcount = n f ∧ 0 < n f ∧ n f < 2 ^ 31

section
variable {files : Nat → Option Description} {n m : Nat → Nat}

lemma int32_of_lt {x : Int} (h0 : 0 ≤ x) (h : x < 2 ^ 31) : int32 x = x := by
  exact Int.bmod_eq_of_le (by omega) (by omega)

section
variable (h : Balanced files n)
include h

lemma Balanced.congr (hn : ∀ f, n f = m f) : Balanced files m := by
  rw [← show n = m from funext hn]
  exact h

/-- A counted address holds a description. -/
lemma Balanced.some_of_pos (hf : 0 < n f) :
    ∃ d, files f = some d ∧ d.refcount = n f ∧ n f < 2 ^ 31 := by
  cases hd : files f with
  | none =>
    have := (h f).1 hd
    omega
  | some d => exact ⟨d, rfl, ((h f).2 d hd).1, ((h f).2 d hd).2.2⟩

/-- Rewriting one description and its count. -/
lemma Balanced.update (f : Nat) (o : Option Description) (c : Nat) (hnone : o = none → c = 0)
    (hsome : ∀ d, o = some d → d.refcount = c ∧ 0 < c ∧ c < 2 ^ 31) :
    Balanced (update files f o) (update n f c) := by
  intro g
  by_cases hg : g = f
  · subst hg
    rw [update_self, update_self]
    exact ⟨hnone, hsome⟩
  · rw [update_of_ne hg, update_of_ne hg]
    exact h g

lemma Balanced.release (hf : 0 < n f) :
    Balanced (fdRelease files f) (Function.update n f (n f - 1)) := by
  obtain ⟨d, hd, hr, hlt⟩ := h.some_of_pos hf
  have hint : int32 (d.refcount - 1) = (n f - 1 : Nat) := by
    rw [hr, int32_of_lt (by omega) (by omega)]
    omega
  rw [fdRelease, hd]
  dsimp only
  rw [hint]
  split_ifs with hpos
  · refine h.update f _ _ (fun hc => by cases hc) fun d' hd' => ?_
    cases hd'
    exact ⟨rfl, by omega, by omega⟩
  · refine h.update f _ _ (fun _ => by omega) fun d' hd' => ?_
    cases hd'

lemma Balanced.share (hf : 0 < n f) (hlt : n f + 1 < 2 ^ 31) :
    Balanced (share files f) (Function.update n f (n f + 1)) := by
  obtain ⟨d, hd, hr, -⟩ := h.some_of_pos hf
  have hint : int32 (d.refcount + 1) = (n f + 1 : Nat) := by
    rw [hr, int32_of_lt (by omega) (by omega)]
    omega
  rw [Fds.share, hd]
  dsimp only
  refine h.update f _ _ (fun hc => by cases hc) fun d' hd' => ?_
  cases hd'
  exact ⟨hint, by omega, hlt⟩

end

lemma count_cons_some (slots : List (Option Nat)) (f g : Nat) :
    (some f :: slots).count (some g) = slots.count (some g) + if g = f then 1 else 0 := by
  by_cases hg : g = f
  · simp [hg]
  · simp [hg, Ne.symm hg]

lemma count_cons_none (slots : List (Option Nat)) (g : Nat) :
    (none :: slots).count (some g) = slots.count (some g) := by simp

/-- Destroying a table takes the references of its slots. -/
lemma Balanced.releaseAll : ∀ {files : Nat → Option Description} {n : Nat → Nat},
      Balanced files n → (∀ f, n f = m f + slots.count (some f)) →
      Balanced (releaseAll slots files) m := by
  induction slots with
  | nil =>
    intro files n h hn
    exact h.congr hn
  | cons o slots ih =>
    intro files n h hn
    cases o with
    | none =>
      refine ih h fun f => ?_
      rw [hn, count_cons_none]
    | some f =>
      have hf := hn f
      rw [count_cons_some, if_pos rfl] at hf
      refine ih (h.release (by omega)) fun g => ?_
      by_cases hg : g = f
      · subst hg
        rw [Function.update_self]
        omega
      · rw [update_of_ne hg, hn, count_cons_some, if_neg hg, add_zero]

/-- Cloning a table adds the references of its slots. -/
lemma Balanced.shareAll : ∀ {files : Nat → Option Description} {n : Nat → Nat},
      Balanced files n → (∀ f, some f ∈ slots → 0 < n f) →
      (∀ f, n f + slots.count (some f) < 2 ^ 31) → (∀ f, m f = n f + slots.count (some f)) →
      Balanced (shareAll slots files) m := by
  induction slots with
  | nil =>
    intro files n h _ _ hm
    exact h.congr fun f => (hm f).symm
  | cons o slots ih =>
    intro files n h hpos hlt hm
    cases o with
    | none =>
      simp only [count_cons_none] at hlt hm
      exact ih h (fun f hf => hpos f (mem_cons_of_mem _ hf)) hlt hm
    | some f =>
      simp only [count_cons_some] at hlt hm
      have hf := hlt f
      rw [if_pos rfl] at hf
      have hstep := h.share (hpos f mem_cons_self) (by omega)
      refine ih hstep (fun g hg => ?_) (fun g => ?_) (fun g => ?_)
      · have := hpos g (mem_cons_of_mem _ hg)
        by_cases hgf : g = f
        · subst hgf
          rw [Function.update_self]
          omega
        · rw [update_of_ne hgf]
          exact this
      · have := hlt g
        by_cases hgf : g = f
        · subst hgf
          rw [if_pos rfl] at this
          rw [update_self]
          omega
        · rw [if_neg hgf] at this
          rw [update_of_ne hgf]
          omega
      rw [hm]
      by_cases hgf : g = f
      · subst hgf
        rw [if_pos rfl, update_self]
        omega
      · rw [if_neg hgf, update_of_ne hgf]
        omega

end

/-! ## Slots of all tables -/

section
variable {tables : List Table} {t t' : Table} {i : Nat}

lemma slotCount_cons (t : Table) (tables : List Table) (f : Nat) :
    slotCount (t :: tables) f = t.slots.count (some f) + slotCount tables f := by
  rw [slotCount, slotCount, flatMap_cons, count_append]

/-- The slots of one table apart from those of the others. -/
lemma slotCount_eraseIdx (h : tables[i]? = some t) (f : Nat) :
    slotCount tables f = slotCount (tables.eraseIdx i) f + t.slots.count (some f) := by
  induction tables generalizing i with
  | nil => cases h
  | cons u tables ih =>
    cases i with
    | zero =>
      cases h
      rw [slotCount_cons, eraseIdx_cons_zero, add_comm]
    | succ i =>
      rw [eraseIdx_cons_succ, slotCount_cons, slotCount_cons, ih h]
      omega

lemma slotCount_set (h : tables[i]? = some t) (t' : Table) (f : Nat) :
    slotCount (tables.set i t') f + t.slots.count (some f) =
      slotCount tables f + t'.slots.count (some f) := by
  induction tables generalizing i with
  | nil => cases h
  | cons u tables ih =>
    cases i with
    | zero =>
      cases h
      rw [set_cons_zero, slotCount_cons, slotCount_cons]
      omega
    | succ i =>
      have := ih h
      rw [set_cons_succ, slotCount_cons, slotCount_cons]
      omega

/-- Writing one slot. -/
lemma count_set (slots : List (Option Nat)) {i : Nat} {o : Option Nat} (h : slots[i]? = some o)
    (o' : Option Nat) (f : Nat) :
    (slots.set i o').count (some f) + (if o = some f then 1 else 0) =
      slots.count (some f) + if o' = some f then 1 else 0 := by
  induction slots generalizing i with
  | nil => cases h
  | cons x slots ih =>
    cases i with
    | zero =>
      cases h
      simp only [set_cons_zero, count_cons, beq_iff_eq]
      omega
    | succ i =>
      have := ih h
      simp only [set_cons_succ, count_cons]
      omega

lemma slotCount_le (tables : List Table) (f : Nat) : slotCount tables f ≤ tables.length * 64 := by
  refine count_le_length.trans ?_
  induction tables with
  | nil => exact Nat.zero_le _
  | cons t tables ih =>
    rw [flatMap_cons, length_append, t.size, length_cons, maxFds]
    omega

end

/-! ## Every run -/

/-- The counts are exact and the tables fit into memory. -/
structure Inv (s : State) : Prop where
  balanced : Balanced s.files (slotCount s.tables)
  fits : s.tables.length * tableBytes ≤ memSize

section
variable {s : State} {i : Nat}

lemma Inv.slotCount_lt (h : Inv s) (f : Nat) : slotCount s.tables f ≤ 2 ^ 30 := by
  have h1 := slotCount_le s.tables f
  have h2 := h.fits
  simp only [tableBytes, maxFds, memSize] at h2
  omega

lemma Inv.create (h : Inv s) (hfits : (s.tables.length + 1) * tableBytes ≤ memSize) :
    Inv { s with tables := fdTableCreate :: s.tables } := by
  refine ⟨h.balanced.congr fun f => ?_, hfits⟩
  rw [slotCount_cons]
  simp [fdTableCreate, count_replicate]

lemma Inv.destroy (h : Inv s) (i : Nat) : Inv (fdTableDestroy s i) := by
  rw [fdTableDestroy]
  cases ht : s.tables[i]? with
  | none => exact h
  | some t =>
    refine ⟨h.balanced.releaseAll (slotCount_eraseIdx ht), ?_⟩
    have hlen : (s.tables.eraseIdx i).length ≤ s.tables.length := length_eraseIdx_le _ _
    exact (Nat.mul_le_mul_right _ hlen).trans h.fits

lemma Inv.clone (h : Inv s) (i : Nat) {granted : Bool}
    (hfits : granted = true → (s.tables.length + 1) * tableBytes ≤ memSize) :
    Inv (fdTableClone s i granted) := by
  rw [fdTableClone]
  cases ht : s.tables[i]? with
  | none => exact h
  | some t =>
    dsimp only
    split
    · rename_i hg
      -- the table of the source is among those counted
      have hle : ∀ f, t.slots.count (some f) ≤ slotCount s.tables f := fun f => by
        rw [slotCount_eraseIdx ht f]
        exact Nat.le_add_left _ _
      refine ⟨h.balanced.shareAll ?_ ?_ ?_, hfits hg⟩
      · intro f hf
        exact lt_of_lt_of_le (count_pos_iff.mpr hf) (hle f)
      · intro f
        have h1 := h.slotCount_lt f
        have h2 : t.slots.count (some f) ≤ t.slots.length := count_le_length
        rw [t.size, maxFds] at h2
        omega
      · intro f
        rw [slotCount_cons, add_comm]
    · exact h

lemma allocFd_some {t : Table} {fd : Nat} (h : allocFd t = some fd) : t.slots[fd]? = some none := by
  simp only [allocFd] at h
  split at h
  · rename_i hlt
    cases h
    have hx := findIdx_getElem (w := hlt)
    rw [getElem?_eq_getElem hlt]
    exact congrArg some (by simpa using hx)
  · cases h

lemma Inv.open (h : Inv s) (i vnode size flags : Nat) {answer : Option Nat}
    (hfree : ∀ a ∈ answer, (s.files a).isNone = true) :
    Inv (fdOpenEx s i vnode size flags answer) := by
  rw [fdOpenEx]
  cases ht : s.tables[i]? with
  | none => exact h
  | some t =>
    dsimp only
    cases hfd : allocFd t with
    | none => exact h
    | some fd =>
      cases answer with
      | none => exact h
      | some a =>
        have hnone : s.files a = none := Option.isNone_iff_eq_none.mp (hfree a rfl)
        have hzero : slotCount s.tables a = 0 := (h.balanced a).1 hnone
        refine ⟨?_, by rw [length_set]; exact h.fits⟩
        refine Balanced.congr (h.balanced.update a _ 1 (fun hc => by cases hc) ?_) fun f => ?_
        · intro d hd
          cases hd
          exact ⟨rfl, by omega, by omega⟩
        show _ = slotCount (s.tables.set i (t.set fd (some a))) f
        have h1 := slotCount_set ht (t.set fd (some a)) f
        have h2 := count_set t.slots (allocFd_some hfd) (some a) f
        rw [Table.slots_set] at h1
        simp only [reduceCtorEq, if_false, Option.some.injEq] at h2
        by_cases hf : f = a
        · subst hf
          rw [update_self]
          simp only [if_true] at h2
          omega
        · rw [update_of_ne hf]
          simp only [Ne.symm hf, if_false] at h2
          omega

lemma Inv.close (h : Inv s) (i fd : Nat) : Inv (fdClose s i fd) := by
  rw [fdClose]
  cases ht : s.tables[i]? with
  | none => exact h
  | some t =>
    dsimp only
    split
    · rename_i f hslot
      have hcleared : ∀ g, slotCount (s.tables.set i (t.set fd none)) g +
          (if f = g then 1 else 0) = slotCount s.tables g := by
        intro g
        have h1 := slotCount_set ht (t.set fd none) g
        have h2 := count_set t.slots hslot none g
        rw [Table.slots_set] at h1
        simp only [reduceCtorEq, if_false, Option.some.injEq] at h2
        omega
      have hf := hcleared f
      rw [if_pos rfl] at hf
      refine ⟨(h.balanced.release (f := f) (by omega)).congr fun g => ?_,
        by rw [length_set]; exact h.fits⟩
      show _ = slotCount (s.tables.set i (t.set fd none)) g
      by_cases hg : g = f
      · subst hg
        rw [Function.update_self]
        omega
      · have := hcleared g
        rw [if_neg (Ne.symm hg)] at this
        rw [update_of_ne hg]
        omega
    · exact h

lemma Inv.step (h : Inv s) {op : Op} (ha : Allowed s op) : Inv (step s op) := by
  cases op with
  | create granted =>
    rw [Fds.step]
    split
    · rename_i hg
      exact h.create (ha hg)
    · exact h
  | destroy i => exact h.destroy i
  | clone i granted => exact h.clone i ha
  | opens i vnode size flags answer => exact h.open i vnode size flags ha
  | close i fd => exact h.close i fd

end

/-- **Reference counts are exact** in every run of the table operations. -/
theorem refcounts_exact {s : State} (h : Reach (· = start) Allowed step s) : Exact s := by
  have hinv : Inv s := by
    refine Reach.invariant Inv ?_ (fun s op hs ha => hs.step ha) h
    rintro s rfl
    exact ⟨fun f => ⟨fun _ => rfl, fun d hd => by cases hd⟩, by decide⟩
  intro f
  refine ⟨⟨(hinv.balanced f).1, fun hzero => ?_⟩, fun d hd => ((hinv.balanced f).2 d hd).1⟩
  cases hd : s.files f with
  | none => rfl
  | some d =>
    have := ((hinv.balanced f).2 d hd).2.1
    omega

lemma reach_run (run : List Op) (h : Obeys Allowed step start run) :
    Reach (· = start) Allowed step (run.foldl step start) := by
  have h0 : Reach (· = start) Allowed step start := .start rfl
  exact h0.obeys h

/-- A table opens a file, is cloned, and both copies are given back, one by a close. -/
theorem refcounts_exact_fork : Exact ([.create true, .opens 0 7 100 0x402 (some 4096), .clone 0 true,
    .close 1 0, .destroy 0].foldl step start) :=
  refcounts_exact (reach_run _ (by decide +kernel))

end FermiOs.Fds
