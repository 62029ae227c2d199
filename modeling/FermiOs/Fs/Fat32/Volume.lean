import FermiOs.Fs.Fat32.Files
import Mathlib.Data.List.TakeWhile

/-!
# Well-formed volumes

The live entries of a volume are those of the root directory and of every directory under it. On a
well-formed volume the root and each live entry own a chain of their own, and a file is not larger than
its chain. The driver changes a volume by growing the chain of a file, by rewriting a size field, and
by adding an entry; what these keep is proved here once for all callers.
-/

namespace FermiOs.Fat32
open Library List

/-! ## Live entries -/

/-- Neither deleted nor part of a long name nor a volume label. -/
def DirEntry.Listed (e : DirEntry) : Prop := e 0 ≠ 0xE5 ∧ e.attr ≠ 0x0F ∧ e.attr &&& 0x08 = 0

instance (e : DirEntry) : Decidable e.Listed :=
  inferInstanceAs (Decidable (e 0 ≠ 0xE5 ∧ e.attr ≠ 0x0F ∧ e.attr &&& 0x08 = 0))

/-- The entry of a directory, not of a file. -/
def DirEntry.IsDir (e : DirEntry) : Prop := e.attr &&& 0x10 ≠ 0

/-- The entries `.` and `..`, which own nothing. -/
def DirEntry.IsDot (e : DirEntry) : Prop := e 0 = 46

/-- The live slots of a directory: those before the end mark that are listed. -/
def liveSlots (v : Vol) (d : Disk) (l : List Nat) : List Loc :=
  ((dirSlots v l).takeWhile fun s => entryAt d s 0 ≠ 0).filter fun s => (entryAt d s).Listed

/-- The live slots of the volume. -/
inductive Live (v : Vol) (d : Disk) (lim : Nat) : Loc → Prop
  | root {l : List Nat} {s : Loc} (hl : ChainAt v d lim v.root l) (hs : s ∈ liveSlots v d l) :
      Live v d lim s
  | sub {s t : Loc} {l : List Nat} (h : Live v d lim s) (hdir : (entryAt d s).IsDir)
      (hdot : ¬ (entryAt d s).IsDot) (hl : ChainAt v d lim (entryAt d s).first l)
      (ht : t ∈ liveSlots v d l) : Live v d lim t

/-- What owns a chain: the root, or a live entry. -/
inductive Owner
  | root
  | entry (s : Loc)
  deriving DecidableEq

/-- The first cluster of an owner. -/
def Owner.first (v : Vol) (d : Disk) : Owner → Nat
  | .root => v.root
  | .entry s => (entryAt d s).first

/-- An owner exists on the volume. -/
def Owner.Exists (v : Vol) (d : Disk) (lim : Nat) : Owner → Prop
  | .root => True
  | .entry s => Live v d lim s ∧ ¬ (entryAt d s).IsDot

/-- An owner is a directory. -/
def Owner.IsDir (d : Disk) : Owner → Prop
  | .root => True
  | .entry s => (entryAt d s).IsDir

/-- The chain of an owner. -/
def Owns (v : Vol) (d : Disk) (lim : Nat) (o : Owner) (l : List Nat) : Prop :=
  o.Exists v d lim ∧ ChainAt v d lim (o.first v d) l

/-- A well-formed volume with clusters below `lim`. Only an empty file may be without a chain. -/
structure Wf (v : Vol) (d : Disk) (lim : Nat) : Prop where
  chain : ∀ o : Owner, o.Exists v d lim →
    (∃ l, ChainAt v d lim (o.first v d) l) ∨ ¬ o.IsDir d ∧ o.first v d = 0
  apart : ∀ o o' l l', Owns v d lim o l → Owns v d lim o' l' → o ≠ o' → ∀ c ∈ l, c ∉ l'
  size : ∀ s, Live v d lim s → ¬ (entryAt d s).IsDot → ¬ (entryAt d s).IsDir →
    ((entryAt d s).first = 0 ∧ (entryAt d s).size = 0) ∨
      ∃ l, ChainAt v d lim (entryAt d s).first l ∧ (entryAt d s).size ≤ capacity v l

variable {e e' : DirEntry} {files : List (Loc × List Nat)} {o : Owner} {r : List Nat}
  {f s : Loc} {l m : List Nat}

section
variable {v : Vol} {d : Disk} {lim : Nat}

/-- A live slot lies in a directory of the volume. -/
lemma Live.owner (h : Live v d lim s) : ∃ o l, o.IsDir d ∧ Owns v d lim o l ∧ s ∈ liveSlots v d l := by
  cases h with
  | root hl hs => exact ⟨.root, _, trivial, ⟨trivial, hl⟩, hs⟩
  | sub h hdir hdot hl ht => exact ⟨.entry _, _, hdir, ⟨⟨h, hdot⟩, hl⟩, ht⟩

lemma live_of_owner (hdir : o.IsDir d) (ho : Owns v d lim o l) (hs : s ∈ liveSlots v d l) :
    Live v d lim s := by
  cases o with
  | root => exact .root ho.2 hs
  | entry t => exact .sub ho.1.1 hdir ho.1.2 ho.2 hs

lemma mem_dirSlots_of_live (h : s ∈ liveSlots v d l) : s ∈ dirSlots v l :=
  (takeWhile_sublist _).subset (mem_of_mem_filter h)

lemma listed_of_live (h : s ∈ liveSlots v d l) : entryAt d s 0 ≠ 0 ∧ (entryAt d s).Listed := by
  rw [liveSlots, mem_filter] at h
  have hbefore := mem_takeWhile_imp h.1
  exact ⟨by simpa using hbefore, of_decide_eq_true h.2⟩

lemma takeWhile_congr {α : Type} {p q : α → Bool} {xs : List α} (h : ∀ x ∈ xs, p x = q x) :
    xs.takeWhile p = xs.takeWhile q := by
  induction xs with
  | nil => rfl
  | cons x xs ih =>
    rw [takeWhile_cons, takeWhile_cons, h x mem_cons_self, ih fun y hy => h y (mem_cons_of_mem x hy)]

lemma SameEntry.listed (h : SameEntry e e') : e'.Listed ↔ e.Listed := by
  rw [DirEntry.Listed, DirEntry.Listed, h.attr_eq, h 0 (by omega)]

lemma liveSlots_congr {d' : Disk} (h : ∀ s ∈ dirSlots v l, SameEntry (entryAt d s) (entryAt d' s)) :
    liveSlots v d' l = liveSlots v d l := by
  have hwhile : (dirSlots v l).takeWhile (fun s => entryAt d' s 0 ≠ 0) =
      (dirSlots v l).takeWhile fun s => entryAt d s 0 ≠ 0 :=
    takeWhile_congr fun s hs => by rw [h s hs 0 (by omega)]
  rw [liveSlots, liveSlots, hwhile]
  refine filter_congr fun s hs => ?_
  exact decide_eq_decide.mpr (h s ((takeWhile_sublist _).subset hs)).listed

end

/-! ## Volumes without subdirectories -/

/-- The chain from `c` on is `l`. -/
def checkChain (v : Vol) (d : Disk) (lim : Nat) : Nat → List Nat → Bool
  | c, [] => decide (fatEoc ≤ c)
  | c, x :: l => decide (c = x) && decide (2 ≤ x) && decide (x < lim) && checkChain v d lim (fatVal v d x) l

section
variable {v : Vol} {d : Disk} {lim : Nat}

lemma chainAt_of_check {first : Nat} (hne : l ≠ []) :
    checkChain v d lim first l = true → ChainAt v d lim first l := by
  intro h
  have hall : (∃ e, fatEoc ≤ e ∧ Path (fatVal v d) first l e) ∧ ∀ c ∈ l, 2 ≤ c ∧ c < lim := by
    clear hne
    induction l generalizing first with
    | nil => exact ⟨⟨first, of_decide_eq_true h, rfl⟩, forall_mem_nil _⟩
    | cons x l ih =>
      simp only [checkChain, Bool.and_eq_true, decide_eq_true_eq] at h
      obtain ⟨⟨⟨rfl, h2⟩, hlt⟩, hl⟩ := h
      obtain ⟨⟨e, he, hp⟩, hrange⟩ := ih hl
      refine ⟨⟨e, he, rfl, hp⟩, fun c hc => ?_⟩
      rcases mem_cons.mp hc with rfl | hc
      · exact ⟨h2, hlt⟩
      · exact hrange c hc
  exact ⟨hall.1, hall.2, hne⟩

variable (v d lim) in
/-- The root directory has chain `r` and the given files, each with a chain of its own. -/
structure Flat (r : List Nat) (files : List (Loc × List Nat)) : Prop where
  root : r ≠ [] ∧ checkChain v d lim v.root r = true
  slots : liveSlots v d r = files.map Prod.fst
  file : ∀ p ∈ files, (entryAt d p.1).attr &&& 0x10 = 0 ∧ entryAt d p.1 0 ≠ 46 ∧ p.2 ≠ [] ∧
    checkChain v d lim (entryAt d p.1).first p.2 = true ∧ (entryAt d p.1).size ≤ capacity v p.2
  apart : ((Owner.root, r) :: files.map fun p => (Owner.entry p.1, p.2)).Pairwise
    fun a b => ∀ c ∈ a.2, c ∉ b.2

instance (r : List Nat) (files : List (Loc × List Nat)) : Decidable (Flat v d lim r files) :=
  decidable_of_iff (_ ∧ _ ∧ _ ∧ _)
    ⟨fun ⟨h1, h2, h3, h4⟩ => ⟨h1, h2, h3, h4⟩, fun h => ⟨h.1, h.2, h.3, h.4⟩⟩

lemma Flat.chain (h : Flat v d lim r files) :
    ChainAt v d lim v.root r := chainAt_of_check h.root.1 h.root.2

variable (hv : v.Shaped) (hlim : lim ≤ v.entries)
include hv hlim

variable (h : Flat v d lim r files)
include h

lemma Flat.live_iff (s : Loc) : Live v d lim s ↔ ∃ l, (s, l) ∈ files := by
  constructor
  · intro hs
    induction hs with
    | root hl hs =>
      obtain rfl := hl.unique hv h.chain hlim
      rw [h.slots] at hs
      obtain ⟨⟨s, l⟩, hp, rfl⟩ := mem_map.mp hs
      exact ⟨l, hp⟩
    | sub _ hdir _ _ _ ih =>
      obtain ⟨l, hp⟩ := ih
      exact absurd (h.file _ hp).1 hdir
  · rintro ⟨l, hp⟩
    exact .root h.chain (h.slots ▸ mem_map.mpr ⟨_, hp, rfl⟩)

lemma Flat.fileOf (hp : (s, l) ∈ files) :
    Live v d lim s ∧ ¬ (entryAt d s).IsDot ∧ ¬ (entryAt d s).IsDir ∧
      ChainAt v d lim (entryAt d s).first l := by
  obtain ⟨hdir, hdot, hne, hc, -⟩ := h.file _ hp
  exact ⟨(h.live_iff hv hlim s).mpr ⟨l, hp⟩, hdot, fun hd => hd hdir, chainAt_of_check hne hc⟩

lemma Flat.wf : Wf v d lim := by
  -- an owner with its chain is the root with `r` or one of the files
  have hown : ∀ o l, Owns v d lim o l → (o = .root ∧ l = r) ∨ ∃ s, o = .entry s ∧ (s, l) ∈ files := by
    intro o l ho
    cases o with
    | root => exact Or.inl ⟨rfl, ho.2.unique hv h.chain hlim⟩
    | entry s =>
      obtain ⟨l', hp⟩ := (h.live_iff hv hlim s).mp ho.1.1
      obtain rfl := ho.2.unique hv (h.fileOf hv hlim hp).2.2.2 hlim
      exact Or.inr ⟨s, rfl, hp⟩
  obtain ⟨hroot, hfiles⟩ := pairwise_cons.mp h.apart
  have hrf : ∀ s l, (s, l) ∈ files → ∀ c ∈ r, c ∉ l := fun s l hp =>
    hroot (.entry s, l) (mem_map.mpr ⟨_, hp, rfl⟩)
  refine ⟨fun o ho => ?_, fun o o' l l' ho ho' hne => ?_, fun s hs _ _ => ?_⟩
  · cases o with
    | root => exact Or.inl ⟨r, h.chain⟩
    | entry s =>
      obtain ⟨l, hp⟩ := (h.live_iff hv hlim s).mp ho.1
      exact Or.inl ⟨l, (h.fileOf hv hlim hp).2.2.2⟩
  · rcases hown o l ho with ⟨rfl, rfl⟩ | ⟨s, rfl, hp⟩
    · rcases hown o' l' ho' with ⟨rfl, -⟩ | ⟨s', rfl, hp'⟩
      · exact absurd rfl hne
      · exact hrf s' l' hp'
    rcases hown o' l' ho' with ⟨rfl, rfl⟩ | ⟨s', rfl, hp'⟩
    · exact fun c hc hc' => hrf s l hp c hc' hc
    · have hsymm : Std.Symm fun a b : Owner × List Nat => ∀ c ∈ a.2, c ∉ b.2 :=
        ⟨fun a b hab c hc hc' => hab c hc' hc⟩
      exact hfiles.forall (mem_map.mpr ⟨_, hp, rfl⟩) (mem_map.mpr ⟨_, hp', rfl⟩)
        fun heq => hne (congrArg Prod.fst heq)
  · obtain ⟨l, hp⟩ := (h.live_iff hv hlim s).mp hs
    obtain ⟨-, -, hne, hc, hsize⟩ := h.file _ hp
    exact Or.inr ⟨l, chainAt_of_check hne hc, hsize⟩

end

/-! ## Change of a volume -/

/-- From `d` to `d'` owners keep their first clusters and their chains grow: by `grow`, out of free
clusters, and for files only. The slots in `X` become entries of files. -/
structure Evolves (v : Vol) (lim : Nat) (d d' : Disk) (grow : Owner → List Nat) (X : Loc → Prop) :
    Prop where
  chains : ∀ o l, Owns v d lim o l → ChainAt v d' lim (o.first v d) (l ++ grow o)
  dirs : ∀ o, o.IsDir d → o.Exists v d lim → grow o = []
  free : ∀ o c, c ∈ grow o → fatVal v d c = 0
  once : ∀ o o' c, c ∈ grow o → c ∈ grow o' → o = o'
  slots : ∀ o l, o.IsDir d → Owns v d lim o l →
    ∀ s, s ∈ liveSlots v d' l ↔ s ∈ liveSlots v d l ∨ X s ∧ s ∈ dirSlots v l
  entries : ∀ s, Live v d lim s → SameEntry (entryAt d s) (entryAt d' s)
  file : ∀ s, X s → ¬ (entryAt d' s).IsDir

section
variable {v : Vol} (hv : v.Shaped) {lim : Nat} (hlim : lim ≤ v.entries) {d d' : Disk}
  {grow : Owner → List Nat} {X : Loc → Prop}

lemma SameEntry.isDir (h : SameEntry e e') : e'.IsDir ↔ e.IsDir := by
  rw [DirEntry.IsDir, DirEntry.IsDir, h.attr_eq]

lemma SameEntry.isDot (h : SameEntry e e') : e'.IsDot ↔ e.IsDot := by
  rw [DirEntry.IsDot, DirEntry.IsDot, h 0 (by omega)]

/-- No chain grows and no slot of a directory changes. -/
lemma Evolves.of_same (hchain : ∀ o l, Owns v d lim o l → ChainAt v d' lim (o.first v d) l)
    (hsame : ∀ o l, Owns v d lim o l → ∀ s ∈ dirSlots v l, SameEntry (entryAt d s) (entryAt d' s)) :
    Evolves v lim d d' (fun _ => []) fun _ => False where
  chains := by
    intro o l ho
    rw [append_nil]
    exact hchain o l ho
  dirs := fun _ _ _ => rfl
  free := fun _ _ hc => absurd hc not_mem_nil
  once := fun _ _ _ hc => absurd hc not_mem_nil
  slots := by
    intro o l _ ho s
    rw [liveSlots_congr (hsame o l ho)]
    exact ⟨.inl, fun h => h.resolve_right fun hx => hx.1⟩
  entries := by
    intro s hs
    obtain ⟨o, l, -, ho, hmem⟩ := hs.owner
    exact hsame o l ho s (mem_dirSlots_of_live hmem)
  file := fun _ hx => hx.elim

lemma Evolves.refl (v : Vol) (lim : Nat) (d : Disk) : Evolves v lim d d (fun _ => []) fun _ => False :=
  .of_same (fun _ _ ho => ho.2) fun _ _ _ _ _ _ _ => rfl

lemma Evolves.dir_chain (h : Evolves v lim d d' grow X) (hdir : o.IsDir d) (ho : Owns v d lim o l) :
    ChainAt v d' lim (o.first v d) l := by
  have hc := h.chains o l ho
  rwa [h.dirs o hdir ho.1, append_nil] at hc

lemma Wf.dir_owns (hw : Wf v d lim) (hdir : o.IsDir d) (ho : o.Exists v d lim) :
    ∃ l, Owns v d lim o l := by
  rcases hw.chain o ho with ⟨l, hl⟩ | ⟨hnot, -⟩
  · exact ⟨l, ho, hl⟩
  · exact absurd hdir hnot

lemma Evolves.live (h : Evolves v lim d d' grow X) (hs : Live v d lim s) : Live v d' lim s := by
  induction hs with
  | root hl hs =>
    have ho : Owns v d lim .root _ := ⟨trivial, hl⟩
    have hdir : Owner.root.IsDir d := trivial
    exact .root (h.dir_chain hdir ho) ((h.slots .root _ hdir ho _).mpr (.inl hs))
  | @sub s t l hs hdir hdot hl ht ih =>
    have ho : Owns v d lim (.entry s) l := ⟨⟨hs, hdot⟩, hl⟩
    have he := h.entries s hs
    have hc : ChainAt v d' lim (entryAt d s).first l := h.dir_chain (o := .entry s) hdir ho
    refine .sub ih (he.isDir.mpr hdir) (fun hd => hdot (he.isDot.mp hd)) ?_
      ((h.slots (.entry s) l hdir ho t).mpr (.inl ht))
    rw [he.first_eq]
    exact hc

include hv hlim

variable (h : Evolves v lim d d' grow X) (hw : Wf v d lim)
include h hw

/-- An entry that is live afterwards was live, or is in one of the new slots. -/
lemma Evolves.live_inv (hs : Live v d' lim s) :
    Live v d lim s ∨ X s ∧ ∃ o l, o.IsDir d ∧ Owns v d lim o l ∧ s ∈ dirSlots v l := by
  -- the directory of the slot has the same chain before and after
  have hstep : ∀ (o : Owner) (l : List Nat) (t : Loc), o.IsDir d → o.Exists v d lim →
      ChainAt v d' lim (o.first v d) l → t ∈ liveSlots v d' l →
      Live v d lim t ∨ X t ∧ ∃ o l, o.IsDir d ∧ Owns v d lim o l ∧ t ∈ dirSlots v l := by
    intro o l t hdir hex hl ht
    obtain ⟨l0, ho⟩ := hw.dir_owns hdir hex
    obtain rfl := (h.dir_chain hdir ho).unique hv hl hlim
    rcases (h.slots o l0 hdir ho t).mp ht with hold | ⟨hx, hmem⟩
    · exact .inl (live_of_owner hdir ho hold)
    · exact .inr ⟨hx, o, l0, hdir, ho, hmem⟩
  induction hs with
  | root hl hs => exact hstep .root _ _ trivial trivial hl hs
  | @sub s t l hs hdir hdot hl ht ih =>
    rcases ih with hold | ⟨hx, -⟩
    · have he := h.entries s hold
      rw [he.first_eq] at hl
      exact hstep (.entry s) l t (he.isDir.mp hdir) ⟨hold, fun hd => hdot (he.isDot.mpr hd)⟩ hl ht
    · exact absurd hdir (h.file s hx)

/-- What the new entries of a change have to meet. -/
def Added (v : Vol) (lim : Nat) (d' : Disk) (grow : Owner → List Nat) (s : Loc) : Prop :=
  ¬ (entryAt d' s).IsDot ∧ ChainAt v d' lim (entryAt d' s).first (grow (.entry s)) ∧
    (entryAt d' s).size ≤ capacity v (grow (.entry s))

/-- The owners afterwards: those before, or the new entries. -/
lemma Evolves.exists_inv (ho : o.Exists v d' lim) :
    (o.Exists v d lim ∧ o.first v d' = o.first v d ∧ (o.IsDir d' ↔ o.IsDir d)) ∨
      ∃ s, o = .entry s ∧ X s := by
  cases o with
  | root => exact .inl ⟨trivial, rfl, Iff.rfl⟩
  | entry s =>
    rcases h.live_inv hv hlim hw ho.1 with hold | ⟨hx, -⟩
    · have he := h.entries s hold
      exact .inl ⟨⟨hold, fun hd => ho.2 (he.isDot.mpr hd)⟩, he.first_eq, he.isDir⟩
    · exact .inr ⟨s, rfl, hx⟩

variable (hadd : ∀ s, X s → Added v lim d' grow s)
include hadd

/-- The chains afterwards: those before, grown. -/
lemma Evolves.owns_inv {l' : List Nat} (ho : Owns v d' lim o l') :
    ∃ l, (l = [] ∨ Owns v d lim o l) ∧ l' = l ++ grow o := by
  rcases h.exists_inv hv hlim hw ho.1 with ⟨hex, hfirst, -⟩ | ⟨s, rfl, hx⟩
  · have hl' := ho.2
    rw [hfirst] at hl'
    rcases hw.chain o hex with ⟨l, hl⟩ | ⟨-, h0⟩
    · exact ⟨l, .inr ⟨hex, hl⟩, hl'.unique hv (h.chains o l ⟨hex, hl⟩) hlim⟩
    · -- without a first cluster there is no chain
      have h2 := (hl'.range _ hl'.first_mem).1
      omega
  · exact ⟨[], .inl rfl, ho.2.unique hv (hadd s hx).2.1 hlim⟩

/-- **Well-formedness is kept** by a change whose new entries are well formed and whose sizes fit. -/
lemma Evolves.wf (hsize : ∀ s, Live v d lim s → ¬ (entryAt d s).IsDot → ¬ (entryAt d s).IsDir →
      ((entryAt d s).first = 0 ∧ (entryAt d' s).size = 0) ∨ ∃ l, ChainAt v d lim (entryAt d s).first l ∧
          (entryAt d' s).size ≤ capacity v (l ++ grow (.entry s))) :
    Wf v d' lim where
  chain := by
    intro o ho
    rcases h.exists_inv hv hlim hw ho with ⟨hex, hfirst, hdir⟩ | ⟨s, rfl, hx⟩
    · rw [hfirst, hdir]
      rcases hw.chain o hex with ⟨l, hl⟩ | hnone
      · exact .inl ⟨_, h.chains o l ⟨hex, hl⟩⟩
      · exact .inr hnone
    · exact .inl ⟨_, (hadd s hx).2.1⟩
  apart := by
    intro o o' l l' ho ho' hne c hc hc'
    obtain ⟨m, hm, rfl⟩ := h.owns_inv hv hlim hw hadd ho
    obtain ⟨m', hm', rfl⟩ := h.owns_inv hv hlim hw hadd ho'
    rcases mem_append.mp hc with hc | hc
    · obtain hm := hm.resolve_left (ne_nil_of_mem hc)
      rcases mem_append.mp hc' with hc' | hc'
      · obtain hm' := hm'.resolve_left (ne_nil_of_mem hc')
        exact hw.apart o o' m m' hm hm' hne c hc hc'
      · exact hm.2.used hc (h.free o' c hc')
    · rcases mem_append.mp hc' with hc' | hc'
      · obtain hm' := hm'.resolve_left (ne_nil_of_mem hc')
        exact hm'.2.used hc' (h.free o c hc)
      · exact hne (h.once o o' c hc hc')
  size := by
    intro s hs hdot hdir
    rcases h.live_inv hv hlim hw hs with hold | ⟨hx, -⟩
    · have he := h.entries s hold
      rw [he.isDot] at hdot
      rw [he.isDir] at hdir
      rw [he.first_eq]
      rcases hsize s hold hdot hdir with h0 | ⟨l, hl, hle⟩
      · exact .inl h0
      · exact .inr ⟨_, h.chains (.entry s) l ⟨⟨hold, hdot⟩, hl⟩, hle⟩
    · exact .inr ⟨_, (hadd s hx).2⟩

end

/-! ## Writing in a file -/

/-- A live entry of a file, with its chain. -/
structure FileOf (v : Vol) (d : Disk) (lim : Nat) (f : Loc) (l : List Nat) : Prop where
  live : Live v d lim f
  dot : ¬ (entryAt d f).IsDot
  file : ¬ (entryAt d f).IsDir
  chain : ChainAt v d lim (entryAt d f).first l

lemma FileOf.owns {v : Vol} {d : Disk} {lim : Nat} (h : FileOf v d lim f l) :
    Owns v d lim (.entry f) l := ⟨⟨h.live, h.dot⟩, h.chain⟩

section
variable {v : Vol} (hv : v.Shaped) {lim : Nat} (hlim : lim ≤ v.entries) {d d' : Disk}
  {new : List Nat}
include hv hlim

/-- The sectors of directories are none of those of a file, nor of clusters that were free. -/
lemma dir_sector_same (hw : Wf v d lim) (hf : FileOf v d lim f l)
    (hfresh : ∀ c ∈ new, 2 ≤ c ∧ c < v.entries ∧ fatVal v d c = 0)
    (hother : ∀ n, v.dataStart ≤ n → (∀ c ∈ l ++ new, ¬ InCluster v c n) → d' n = d n)
    (hdir : o.IsDir d) (ho : Owns v d lim o m) (hs : s ∈ dirSlots v m) :
    d' s.1 = d s.1 := by
  obtain ⟨⟨c, hc, hin⟩, -⟩ := mem_dirSlots.mp hs
  have hr := ho.2.range c hc
  have hc' : c < v.entries := lt_of_lt_of_le hr.2 hlim
  refine hother s.1 (hin.bounds hv hr.1 hc').1 fun c' hmem hin' => ?_
  have hne : Owner.entry f ≠ o := by
    rintro rfl
    exact hf.file hdir
  rcases mem_append.mp hmem with hmem | hmem
  · have hr' := hf.chain.range c' hmem
    obtain rfl := hin.inj hv hin' hr.1 hc' hr'.1 (lt_of_lt_of_le hr'.2 hlim)
    exact hw.apart _ _ l m hf.owns ho hne c hmem hc
  · obtain ⟨h2, hlt, hfree⟩ := hfresh c' hmem
    obtain rfl := hin.inj hv hin' hr.1 hc' h2 hlt
    exact ho.2.used hc hfree

/-- The entries of the volume are left alone by a write to a file. -/
lemma entry_same (hw : Wf v d lim) (hf : FileOf v d lim f l)
    (hfresh : ∀ c ∈ new, 2 ≤ c ∧ c < v.entries ∧ fatVal v d c = 0)
    (hother : ∀ n, v.dataStart ≤ n → (∀ c ∈ l ++ new, ¬ InCluster v c n) → d' n = d n)
    (hs : Live v d lim s) : entryAt d' s = entryAt d s := by
  obtain ⟨o, m, hdir, ho, hmem⟩ := hs.owner
  rw [entryAt, entryAt, dir_sector_same hv hlim hw hf hfresh hother hdir ho (mem_dirSlots_of_live hmem)]

omit hv in
lemma chain_kept (hw : Wf v d lim) (hf : FileOf v d lim f l) (hg : Grown v d d' l new)
    (ho : Owns v d lim o m) (hne : o ≠ .entry f) :
    ChainAt v d' lim (o.first v d) m := by
  refine ho.2.congr fun c hc => ?_
  have hr := ho.2.range c hc
  refine hg.kept c hr.1 (lt_of_lt_of_le hr.2 hlim) (ho.2.used hc) fun hlast => ?_
  exact hw.apart _ _ m l ho hf.owns hne c hc (mem_of_getLast? hlast)

/-- **A write to a file** grows its chain and changes nothing else of the volume's structure. -/
lemma evolves_write (hw : Wf v d lim) (hf : FileOf v d lim f l) (hg : Grown v d d' l new)
    (hchain : ChainAt v d' v.entries (entryAt d f).first (l ++ new)) (hnew : ∀ c ∈ new, c < lim)
    (hother : ∀ n, v.dataStart ≤ n → (∀ c ∈ l ++ new, ¬ InCluster v c n) → d' n = d n) :
    Evolves v lim d d' (fun o => if o = .entry f then new else []) fun _ => False where
  chains := by
    intro o m ho
    by_cases heq : o = .entry f
    · subst heq
      obtain rfl := ho.2.unique hv hf.chain hlim
      rw [if_pos rfl]
      refine ⟨hchain.path, fun c hc => ⟨(hchain.range c hc).1, ?_⟩, hchain.ne⟩
      rcases mem_append.mp hc with hc | hc
      · exact (ho.2.range c hc).2
      · exact hnew c hc
    · rw [if_neg heq, append_nil]
      exact chain_kept hlim hw hf hg ho heq
  dirs := by
    intro o hdir _
    refine if_neg ?_
    rintro rfl
    exact hf.file hdir
  free := by
    intro o c hc
    split at hc
    · exact (hg.fresh c hc).2.2
    · exact absurd hc not_mem_nil
  once := by
    intro o o' c hc hc'
    split at hc
    · split at hc'
      · rename_i h h'
        rw [h, h']
      · exact absurd hc' not_mem_nil
    · exact absurd hc not_mem_nil
  slots := by
    intro o m hdir ho s
    have hsame : liveSlots v d' m = liveSlots v d m := liveSlots_congr fun s hs k _ => by
      rw [entryAt, entryAt, dir_sector_same hv hlim hw hf hg.fresh hother hdir ho hs]
    rw [hsame]
    exact ⟨Or.inl, fun h => h.resolve_right fun hx => hx.1⟩
  entries := by
    intro s hs k _
    rw [entry_same hv hlim hw hf hg.fresh hother hs]
  file := fun _ hx => hx.elim

end

/-! ## Rewriting a size -/

section
variable {v : Vol} (hv : v.Shaped) {lim : Nat} (hlim : lim ≤ v.entries) {d : Disk} {t : Loc}
include hv hlim

lemma evolves_putSize (ht : v.dataStart ≤ t.1) (n : Nat) :
    Evolves v lim d (putSize d t n) (fun _ => []) fun _ => False :=
  .of_same (fun _ _ ho => ho.2.congr fun c hc =>
    fatVal_update hv (lt_of_lt_of_le (ho.2.range c hc).2 hlim) ht _)
    fun _ _ _ s _ => sameEntry_putSize d t n s

/-- A size that fits keeps the volume well formed. -/
lemma wf_putSize (hw : Wf v d lim) (ht : v.dataStart ≤ t.1) {n : Nat}
    (hfit : ∀ l, FileOf v d lim t l → u32 n ≤ capacity v l)
    (hzero : Live v d lim t → (entryAt d t).first = 0 → u32 n = 0) : Wf v (putSize d t n) lim := by
  refine (evolves_putSize hv hlim ht n).wf hv hlim hw (fun _ hx => hx.elim) fun s hs hdot hdir => ?_
  by_cases heq : s = t
  · subst heq
    rw [size_putSize]
    rcases hw.size s hs hdot hdir with ⟨h0, -⟩ | ⟨l, hl, -⟩
    · exact Or.inl ⟨h0, hzero hs h0⟩
    · exact Or.inr ⟨l, hl, by rw [append_nil]; exact hfit l ⟨hs, hdot, hdir, hl⟩⟩
  · rw [size_congr fun k hk => entryAt_putSize_of_ne heq hk]
    rcases hw.size s hs hdot hdir with h0 | ⟨l, hl, hle⟩
    · exact Or.inl h0
    · exact Or.inr ⟨l, hl, by rwa [append_nil]⟩

end

/-- What a write to a file ends with: the data is written, with end `e` or without success; then the
size in the entry `fat32_truncate_path` finds is rewritten, or that fails. -/
inductive FileWritten (v : Vol) (d : Disk) (first : Nat) (l r : List Nat) (rel : Option (List UInt8))
    (offset : Nat) (data : List UInt8) (new : List Nat) : Ret → Disk → Prop
  | failed {res : Ret} {e : Option Nat} {d' : Disk}
      (h : Written v d first l (u32 offset) (data.take (u32 data.length)) e d' new)
      (hres : ∀ n, res ≠ .ok n) : FileWritten v d first l r rel offset data new res d'
  | sized {res : Ret} {e : Nat} {d₁ : Disk} {path : List UInt8} {s : Loc}
      (h : Written v d first l (u32 offset) (data.take (u32 data.length)) (some e) d₁ new)
      (hrel : rel = some path) (hroot : (splitLast path).1 = none)
      (hs : search (sizeVerdict (to83 (splitLast path).2)) d₁ (dirSlots v r) = some s)
      (hres : ∀ n, res = .ok n → n = e) :
      FileWritten v d first l r rel offset data new res (putSize d₁ s e)

/-- **A write call**, with a table that can be read. -/
lemma wp_fat32FileWrite {v : Vol} (hv : v.Shaped) {lim : Nat} (hlim : lim ≤ v.entries) {d : Disk}
    {Fails : Transfer → Prop} (hread : TableReads v Fails) (hw : Wf v d lim)
    (hf : FileOf v d lim f l) (hr : ChainAt v d lim v.root r) (rel : Option (List UInt8))
    (offset : Nat) (data : List UInt8) :
    (fat32FileWrite v rel (entryAt d f).first offset data).Wp Fails d fun res d' =>
      ∃ new, FileWritten v d (entryAt d f).first l r rel offset data new res d' := by
  rw [fat32FileWrite, BlockProg.wp_bind]
  refine (wp_fat32WriteAt hv hread (hf.chain.mono hlim) _ _).mono fun e d₁ ⟨new, h⟩ => ?_
  cases e with
  | none => exact ⟨new, .failed h fun n => Ret.noConfusion⟩
  | some e =>
    cases rel with
    | none => exact ⟨new, .failed h fun n => Ret.noConfusion⟩
    | some path =>
      have ho : Owns v d lim .root r := ⟨trivial, hr⟩
      have hr1 : ChainAt v d₁ v.entries v.root r :=
        (chain_kept hlim hw hf h.grown ho Owner.noConfusion).mono hlim
      rw [BlockProg.wp_bind]
      refine (wp_fat32TruncatePath hv hread hr1 path e).mono fun t d' ht => ?_
      cases ht with
      | kept hne _ =>
        cases t with
        | ok => exact absurd rfl hne
        | err => exact ⟨new, .failed h fun n => Ret.noConfusion⟩
        | fault => exact ⟨new, .failed h fun n => Ret.noConfusion⟩
      | put hroot hs _ =>
        cases t with
        | ok => exact ⟨new, .sized h rfl hroot hs fun n hn => (Ret.ok.inj hn).symm⟩
        | err => exact ⟨new, .sized h rfl hroot hs nofun⟩
        | fault => exact ⟨new, .sized h rfl hroot hs nofun⟩

end FermiOs.Fat32
