import FermiOs.Fs.Fat32.Paths

/-!
# Opens that create

Whether a file exists is decided by `vfs_resolve`, and it is created by `fat32_create`, which has path
rules of its own. Over paths on which both agree, no directory gets a second entry of an 8.3 name, an
entry is created in the directory its path names, and the path leads to it afterwards.
-/

namespace FermiOs.Fat32
open Library List

/-- No directory has two live entries with one 8.3 name. -/
def NoTwins (v : Vol) (lim : Nat) (d : Disk) : Prop :=
  ∀ (o : Owner) l, o.IsDir d → Owns v d lim o l → ∀ s ∈ liveSlots v d l, ∀ t ∈ liveSlots v d l,
    (entryAt d s).name = (entryAt d t).name → s = t

/-- The directories entered along names, innermost first: `.` stays, `..` goes back. -/
def diskWalk (v : Vol) (d : Disk) : List Nat → List (List UInt8) → Option (List Nat)
  | dirs, [] => some dirs
  | dirs, name :: names =>
    if name = [46] then diskWalk v d dirs names
    else if name = [46, 46] then if dirs.length ≤ 1 then none else diskWalk v d dirs.tail names
    else
      match dirs.head?.bind fun dir => lookupSlot v d dir name with
      | none => none
      | some s =>
        if (entryAt d s).attr &&& 0x10 = 0 then none
        else diskWalk v d ((entryAt d s).first :: dirs) names

/-- The directory below the mount point that a path names for its last component. -/
def namedDir (v : Vol) (d : Disk) (path : List UInt8) : Option Nat :=
  if mountNames <+: components path then
    (diskWalk v d [v.root] ((components path).drop 2).dropLast).bind head?
  else none

/-- What is demanded of an open: an entry that it adds lies in the directory its path names, and the
path leads to it afterwards. -/
structure Placed (v : Vol) (lim : Nat) (path : List UInt8) (fs fs' : Fs) : Prop where
  named : ∀ t, Live v fs'.disk lim t → ¬ Live v fs.disk lim t → ∃ dir, namedDir v fs.disk path = some dir ∧
    t ∈ dirSlots v (chainFrom v fs.disk v.entries dir)
  found : ∀ t, Live v fs'.disk lim t → ¬ Live v fs.disk lim t →
    ∃ i, (vfsResolve v fs' path).1 = some i ∧ entryOf v (vfsResolve v fs' path).2 i = some t

/-- A path on which resolution and creation agree: it has a slash behind the mount path and a last
name; no name is `.` or `..` or longer than twelve bytes; and the end mark of the directory stays
one. -/
structure PlainPath (v : Vol) (d : Disk) (path rel : List UInt8) : Prop where
  under : UnderMount path
  last : (splitLast rel).2 ≠ []
  names : ∀ x ∈ components rel, x.length ≤ 12 ∧ x ≠ [46] ∧ x ≠ [46, 46]
  ends : ∀ dir ∈ walkNames v d v.root (components ((splitLast rel).1.getD [])),
    ∀ t ∈ search freeVerdict d (dirSlots v (chainFrom v d v.entries dir)),
      EndsClean d (dirSlots v (chainFrom v d v.entries dir)) t

/-! ## Entries of one name -/

variable {dir n : Nat} {name : List UInt8} {s : Loc}

section
variable {v : Vol} (hv : v.Shaped) {lim : Nat} (hlim : lim ≤ v.entries) {d d' : Disk}

/-- A lookup that finds nothing: no live slot has the name. -/
lemma search_none_live {l : List Nat} (h : search (lookupVerdict name) d (dirSlots v l) = none) :
    ∀ s ∈ liveSlots v d l, (entryAt d s).name ≠ name := by
  rw [liveSlots]
  generalize dirSlots v l = slots at h ⊢
  induction slots with
  | nil => exact forall_mem_nil _
  | cons t slots ih =>
    intro s hs hname
    rw [search] at h
    by_cases h0 : entryAt d t 0 = 0
    · rw [takeWhile_cons_of_neg (by simpa using h0)] at hs
      exact absurd hs not_mem_nil
    rw [takeWhile_cons_of_pos (by simpa using h0), filter_cons] at hs
    cases hv : lookupVerdict name (entryAt d t) with
    | stop => exact h0 (lookupVerdict_stop.mp hv)
    | hit =>
      rw [hv] at h
      cases h
    | skip =>
      rw [hv] at h
      have hrest : s ∈ (slots.takeWhile fun s => entryAt d s 0 ≠ 0).filter
          fun s => (entryAt d s).Listed := by
        split_ifs at hs with hl
        · rcases mem_cons.mp hs with rfl | hs
          · have hhit := lookupVerdict_hit.mpr ⟨h0, of_decide_eq_true hl, hname⟩
            rw [hv] at hhit
            exact Verdict.noConfusion hhit
          · exact hs
        · exact hs
      exact ih h s hrest hname

/-- A new entry is found under its name, if no live entry had it. -/
lemma NewSlot.found (h : NewSlot v d d' dir name s) (hno : lookupSlot v d dir name = none) :
    search (lookupVerdict (to83 name)) d' (dirSlots v (chainFrom v d v.entries dir)) = some s := by
  rw [lookupSlot] at hno
  have hfirst := h.first
  have hother := h.other
  generalize dirSlots v (chainFrom v d v.entries dir) = slots at hno hfirst hother ⊢
  obtain ⟨before, after, rfl, hskip, hfree⟩ := search_eq_some.mp hfirst
  have hhit : lookupVerdict (to83 name) (entryAt d' s) = .hit :=
    lookupVerdict_hit.mpr ⟨h.used, h.listed, h.name⟩
  refine search_eq_some.mpr ⟨before, after, rfl, ?_, hhit⟩
  -- before the first unused slot the lookup passes entries of other names
  clear hfirst
  induction before with
  | nil => exact forall_mem_nil _
  | cons b before ih =>
    have hb := freeVerdict_skip.mp (hskip b mem_cons_self)
    rw [cons_append, search] at hno
    have hbv : lookupVerdict (to83 name) (entryAt d b) = .skip := by
      cases hv : lookupVerdict (to83 name) (entryAt d b) with
      | skip => rfl
      | stop => exact absurd (lookupVerdict_stop.mp hv) hb.1
      | hit =>
        rw [hv] at hno
        cases hno
    rw [hbv] at hno
    intro t ht
    rcases mem_cons.mp ht with rfl | ht
    · by_cases heq : t = s
      · rw [heq] at hb
        exact ((freeVerdict_hit.mp hfree).elim hb.1 hb.2).elim
      · rw [(hother t mem_cons_self heq).lookupVerdict]
        exact hbv
    · exact ih hno (fun t ht => hother t (mem_cons_of_mem b ht))
        (fun t ht => hskip t (mem_cons_of_mem b ht)) t ht

include hv hlim

/-- Entries of new names make no twins. -/
lemma NoTwins.evolve (h : NoTwins v lim d) (hw : Wf v d lim) {grow : Owner → List Nat}
    {X : Loc → Prop} (hev : Evolves v lim d d' grow X) (hone : ∀ s t, X s → X t → s = t)
    (hfresh : ∀ s (o : Owner) l, X s → o.IsDir d → Owns v d lim o l → s ∈ dirSlots v l →
      ∀ t ∈ liveSlots v d l, (entryAt d t).name ≠ (entryAt d' s).name) : NoTwins v lim d' := by
  intro o l' hdir' ho' s hs t ht hname
  rcases hev.exists_inv hv hlim hw ho'.1 with ⟨hex, hfirst, hdir⟩ | ⟨x, rfl, hx⟩
  · have hdir := hdir.mp hdir'
    obtain ⟨l, ho⟩ := hw.dir_owns hdir hex
    have hl' := ho'.2
    rw [hfirst] at hl'
    obtain rfl := (hev.dir_chain hdir ho).unique hv hl' hlim
    have hkeep : ∀ u, u ∈ liveSlots v d l → (entryAt d' u).name = (entryAt d u).name := fun u hu =>
      (hev.entries u (live_of_owner hdir ho hu)).name_eq
    rcases (hev.slots o l hdir ho s).mp hs with hs | ⟨hxs, hsl⟩
    · rcases (hev.slots o l hdir ho t).mp ht with ht | ⟨hxt, htl⟩
      · rw [hkeep s hs, hkeep t ht] at hname
        exact h o l hdir ho s hs t ht hname
      · rw [hkeep s hs] at hname
        exact absurd hname (hfresh t o l hxt hdir ho htl s hs)
    · rcases (hev.slots o l hdir ho t).mp ht with ht | ⟨hxt, -⟩
      · rw [hkeep t ht] at hname
        exact absurd hname.symm (hfresh s o l hxs hdir ho hsl t ht)
      · exact hone s t hxs hxt
  · exact absurd hdir' (hev.file x hx)

end

/-! ## Paths on which resolution and creation agree -/

section
variable {v : Vol} {d : Disk}

lemma diskWalk_of_walkNames (xs : List (List UInt8))
    (hxs : ∀ x ∈ xs, x.length ≤ 12 ∧ x ≠ [46] ∧ x ≠ [46, 46]) :
    ∀ (c : Nat) (dirs : List Nat) (dir : Nat), walkNames v d c xs = some dir →
      ∃ dirs', diskWalk v d (c :: dirs) xs = some (dir :: dirs') := by
  induction xs with
  | nil =>
    intro c dirs dir h
    obtain rfl := Option.some.inj h
    exact ⟨dirs, rfl⟩
  | cons x xs ih =>
    intro c dirs dir h
    obtain ⟨hlen, hdot, hdots⟩ := hxs x mem_cons_self
    obtain ⟨s, hs, hattr, hrest⟩ := walkNames_cons h
    rw [take_of_length_le hlen] at hs
    rw [diskWalk, if_neg hdot, if_neg hdots, head?_cons, Option.bind_some, hs]
    dsimp only
    rw [if_neg hattr]
    exact ih (fun y hy => hxs y (mem_cons_of_mem x hy)) _ _ dir hrest

variable {path rel : List UInt8} (h : PlainPath v d path rel) (hrel : fat32RelPath path = some rel)
include h hrel

lemma PlainPath.path_eq : components path =
      mountNames ++ (components ((splitLast rel).1.getD []) ++ [(splitLast rel).2]) := by
  rw [h.under.components hrel, components_splitLast h.last]

/-- The directory in which the entry is created is the one the path names. -/
lemma PlainPath.namedDir
    (hwalk : walkNames v d v.root (components ((splitLast rel).1.getD [])) = some dir) :
    namedDir v d path = some dir := by
  have hnames : ∀ x ∈ components ((splitLast rel).1.getD []),
      x.length ≤ 12 ∧ x ≠ [46] ∧ x ≠ [46, 46] := fun x hx =>
    h.names x (by rw [components_splitLast h.last]; exact mem_append_left _ hx)
  obtain ⟨dirs, hdirs⟩ := diskWalk_of_walkNames _ hnames v.root [] dir hwalk
  have hdrop : (components path).drop 2 =
      components ((splitLast rel).1.getD []) ++ [(splitLast rel).2] := by
    rw [h.path_eq hrel]
    rfl
  rw [Fat32.namedDir, if_pos (by rw [h.path_eq hrel]; exact prefix_append _ _), hdrop,
    dropLast_concat, hdirs]
  rfl

lemma PlainPath.isPlain (h0 : 0 ∉ path) : IsPlain (splitLast rel).2 ∧
      ∀ x ∈ components ((splitLast rel).1.getD []), IsPlain x := by
  have hall : ∀ x ∈ components rel, IsPlain x := by
    intro x hx
    obtain ⟨hlen, hdot, hdots⟩ := h.names x hx
    have hmem : x ∈ components path := by
      rw [h.under.components hrel]
      exact mem_append_right _ hx
    exact ⟨isComponent_of_mem h0 hmem, hlen, hdot, hdots⟩
  rw [components_splitLast h.last] at hall
  exact ⟨hall _ (mem_append_right _ (mem_singleton.mpr rfl)), fun x hx => hall x (mem_append_left _ hx)⟩

end

/-! ## Directories on the way -/

section
variable {v : Vol} (hv : v.Shaped) {lim : Nat} (hlim : lim ≤ v.entries) {d d' : Disk}
include hv hlim

/-- Names lead to a directory of the volume, and in a changed volume to the same one. -/
lemma walkNames_owner (hw : Wf v d lim) (names : List (List UInt8)) : ∀ (o : Owner) (dir : Nat),
    o.IsDir d → o.Exists v d lim → walkNames v d (o.first v d) names = some dir →
    (∃ o' : Owner, o'.IsDir d ∧ o'.Exists v d lim ∧ o'.first v d = dir) ∧
      ∀ {d' : Disk} {grow : Owner → List Nat} {X : Loc → Prop}, Evolves v lim d d' grow X →
        KeepsLookups v lim d d' → walkNames v d' (o.first v d) names = some dir := by
  induction names with
  | nil =>
    intro o dir hdir hex h
    obtain rfl := Option.some.inj h
    exact ⟨⟨o, hdir, hex, rfl⟩, fun _ _ => rfl⟩
  | cons name names ih =>
    intro o dir hdir hex h
    obtain ⟨s, hs, hattr, hrest⟩ := walkNames_cons h
    obtain ⟨mp, ho, hfound, hlive, hdot⟩ := lookupSlot_owner hv hlim hw hdir hex hs
    obtain ⟨howner, hkept⟩ := ih (.entry s) dir hattr ⟨hlive, hdot⟩ hrest
    refine ⟨howner, fun {d' _ _} hev hkeep => ?_⟩
    have hs' : lookupSlot v d' (o.first v d) (name.take 12) = some s := by
      rw [lookupSlot, chainFrom_eq hv hlim (hev.dir_chain hdir ho)]
      exact hkeep o mp _ s hdir ho hfound
    have he := hev.entries s hlive
    rw [walkNames, hs']
    dsimp only
    rw [he.attr_eq, if_neg hattr, he.first_eq]
    exact hkept hev hkeep

end

/-! ## Memory -/

section
variable {v : Vol} {fs : Fs}

lemma Ample.mono {n' : Nat} (h : Ample fs n) (hn : n' ≤ n) : Ample fs n' :=
  ⟨h.grants, by have := h.pool; omega⟩

lemma length_of_shapes {nodes nodes' : List Vnode} (h : shapes nodes = shapes nodes') :
    nodes.length = nodes'.length := by
  have hle : ∀ {a b : List Vnode}, shapes a = shapes b → a.length ≤ b.length := by
    intro a b hab
    by_contra hlt
    have hat := congrFun hab b.length
    rw [shapes, shapes, getElem?_eq_none le_rfl, Option.map_none, Option.map_eq_none_iff,
      getElem?_eq_none_iff] at hat
    omega
  exact le_antisymm (hle h) (hle h.symm)

lemma Ample.findChild (h : Ample fs (n + 1)) (dir : Nat) (node : Vnode) (name : List UInt8) :
    Ample (findChild v fs dir node name).2 n := by
  have hpool := h.pool
  refine findChild_rule (P := fun fs' => Ample fs' n)
    (fun _ _ hg => ⟨fun b hb => h.grants b (hg hb), ?_⟩)
    fun _ _ child hg _ _ _ _ _ => ⟨fun b hb => h.grants b (hg hb), ?_⟩
  · dsimp only
    omega
  · rw [length_append, length_singleton]
    omega

/-- A path takes at most one vnode for each of its names. -/
lemma Ample.resolveFrom (names : List (List UInt8)) (fs : Fs) (cur : Nat)
    (h : Ample fs (n + names.length)) : Ample (resolveFrom v fs cur names).2 n := by
  induction names generalizing fs cur with
  | nil => exact h
  | cons name names ih =>
    have hrest : Ample fs (n + names.length) := h.mono (by rw [length_cons]; omega)
    have hless : Ample fs n := h.mono (by omega)
    rw [Fat32.resolveFrom]
    cases fs.nodes[cur]? with
    | none => exact hless
    | some node =>
      dsimp only
      split
      · exact hless
      split
      · exact ih fs cur hrest
      split
      · exact ih fs _ hrest
      have hstep : Ample (Fat32.findChild v fs cur node name).2 (n + names.length) :=
        Ample.findChild (by rwa [length_cons, ← add_assoc] at h) cur node name
      generalize Fat32.findChild v fs cur node name = res at hstep ⊢
      obtain ⟨r, fs'⟩ := res
      cases r with
      | none => exact hstep.mono (by omega)
      | some i => exact ih fs' i hstep

lemma openNode_grants (v : Vol) (fs : Fs) (free : Bool) (i flags : Nat) :
    ∀ b ∈ (openNode v fs free i flags).2.grants, b ∈ fs.grants := by
  refine openNode_rule (Q := fun fs' => ∀ b ∈ fs'.grants, b ∈ fs.grants) fun fs' hfs' => ?_
  have hsame : fs'.grants = fs.grants := by
    rcases hfs' with rfl | rfl
    · rfl
    · exact fat32FileTruncate_rule (Q := fun fs' => fs'.grants = fs.grants) rfl fun _ _ _ => rfl
  rw [← hsame]
  exact ⟨fun b hb => hb, openFile_rule (Q := fun fs'' => ∀ b ∈ fs''.grants, b ∈ fs'.grants)
    fun _ _ hg => hg⟩

/-- An open resolves its path twice at most. -/
lemma Ample.fdOpenEx (path : List UInt8) (free : Bool) (flags : Nat)
    (h : Ample fs (n + 2 * (components path).length)) :
    Ample (fdOpenEx v fs free path flags).2 n := by
  have hless : Ample fs n := h.mono (by omega)
  have hnode : ∀ {fs' : Fs} (i : Nat), Ample fs' n → Ample (openNode v fs' free i flags).2 n := by
    intro fs' i h'
    refine ⟨fun b hb => h'.grants b (openNode_grants v fs' free i flags b hb), ?_⟩
    rw [length_of_shapes (openNode_shapes v fs' free i flags)]
    exact h'.pool
  have h₁ : Ample (vfsResolve v fs path).2 (n + (components path).length) :=
    Ample.resolveFrom _ fs 0 (h.mono (by omega))
  have hless1 := h₁.mono (show n ≤ _ by omega)
  refine fdOpenEx_rule (Q := fun fs' => Ample fs' n) hless hless1 (fun i _ => hnode i hless1) ?_
  rintro - - fs2 rfl
  obtain ⟨hnodes, hgrants⟩ := fat32CreateFile_nodes v (vfsResolve v fs path).2 path
  have h₂ : Ample (fat32CreateFile v (vfsResolve v fs path).2 path).2
      (n + (components path).length) := ⟨by rw [hgrants]; exact h₁.grants, by rw [hnodes]; exact h₁.pool⟩
  have h₃ : Ample (vfsResolve v _ path).2 n := Ample.resolveFrom _ _ 0 h₂
  exact ⟨h₂.mono (by omega), h₃, fun i => hnode i h₃⟩

end

/-! ## The call -/

section
variable {v : Vol} (hv : v.Shaped) {m : Nat} {fs : Fs}
include hv

/-- With memory, a path that is not resolved has no entry on the disk. -/
lemma PlainPath.newName (h : Sound v v.entries m fs) (hb : Booted m (shapes fs.nodes))
    {path : CString} {rel : List UInt8} (hrel : fat32RelPath path.1 = some rel)
    (hp : PlainPath v fs.disk path.1 rel) (hmem : Ample fs (components path.1).length)
    (hnone : (vfsResolve v fs path.1).1 = none) : NewName v fs.disk rel := by
  intro dir hdir
  obtain ⟨hx, hxs⟩ := hp.isPlain hrel path.2
  refine ⟨?_, hp.ends dir hdir⟩
  rw [take_of_length_le hx.short]
  cases he : lookupSlot v fs.disk dir (splitLast rel).2 with
  | none => rfl
  | some e =>
    exfalso
    have hcomp := hp.path_eq hrel
    have hlen : (components ((splitLast rel).1.getD [])).length + 1 ≤ (components path.1).length := by
      rw [hcomp]
      simp
    obtain ⟨i, hi, -⟩ := vfsResolve_finds hv le_rfl h hb hcomp hx hxs hdir he
      ⟨hmem.grants, by have := hmem.pool; omega⟩
    rw [hnone] at hi
    cases hi

/-- What an open does to the volume: `d₂` is it behind a creation, if the path is not resolved; then at
most one size is rewritten. -/
structure Opened (v : Vol) (fs : Fs) (path : CString) (flags : Nat) (d₂ : Disk)
    (grow : Owner → List Nat) (X : Loc → Prop) (d' : Disk) : Prop where
  evolves : Evolves v v.entries fs.disk d₂ grow X
  wf : Wf v d₂ v.entries
  lookups : KeepsLookups v v.entries fs.disk d₂
  created : ∀ s, X s → Creates v fs path flags ∧ ∃ rel dir, fat32RelPath path.1 = some rel ∧
    walkNames v fs.disk v.root (components ((splitLast rel).1.getD [])) = some dir ∧
    NewSlot v fs.disk d₂ dir ((splitLast rel).2.take 12) s
  sized : d' = d₂ ∨ ∃ s : Loc, v.dataStart ≤ s.1 ∧ d' = putSize d₂ s 0

lemma fdOpenEx_change (h : Sound v v.entries m fs) (free : Bool) (path : CString) (flags : Nat)
    (hnew : Creates v fs path flags → ∀ rel ∈ fat32RelPath path.1, NewName v fs.disk rel) :
    ∃ d₂ grow X, Opened v fs path flags d₂ grow X (fdOpenEx v fs free path.1 flags).2.disk := by
  have hsame : ∀ {d' : Disk}, (d' = fs.disk ∨ ∃ s : Loc, v.dataStart ≤ s.1 ∧ d' = putSize fs.disk s 0) →
      ∃ d₂ grow X, Opened v fs path flags d₂ grow X d' := fun hd =>
    ⟨fs.disk, _, _, .refl v v.entries fs.disk, h.wf, fun _ _ _ _ _ _ hs => hs, fun _ hx => hx.elim, hd⟩
  -- opening a vnode behind a lookup
  have hopen : ∀ {fs' : Fs} {d : Disk}, Sound v v.entries m fs' → fs'.disk = d → ∀ i,
      (openNode v fs' free i flags).2.disk = d ∨ ∃ s : Loc, v.dataStart ≤ s.1 ∧
        (openNode v fs' free i flags).2.disk = putSize d s 0 := by
    rintro fs' d hs rfl i
    obtain ⟨r, -, hr⟩ := hs.wf.dir_owns (o := .root) trivial trivial
    exact openNode_disk hv hs.answers hr free i flags
  have h₁ := vfsResolve_sound hv le_rfl h path.2
  have hdisk := (vfsResolve_cached v fs path.1).disk
  refine fdOpenEx_rule (Q := fun fs' => ∃ d₂ grow X, Opened v fs path flags d₂ grow X fs'.disk)
    (hsame (.inl rfl)) (hsame (.inl hdisk)) (fun i _ => hsame (hopen h₁ hdisk i)) ?_
  rintro hnone hcreat fs2 rfl
  cases hrel : fat32RelPath path.1 with
  | none =>
    have hcf : fat32CreateFile v (vfsResolve v fs path.1).2 path.1 =
        (false, (vfsResolve v fs path.1).2) := by
      rw [fat32CreateFile, hrel]
    have h₂ := vfsResolve_sound hv le_rfl h₁ path.2
    have hdisk2 := (vfsResolve_cached v (vfsResolve v fs path.1).2 path.1).disk.trans hdisk
    rw [hcf]
    exact ⟨hsame (.inl hdisk), hsame (.inl hdisk2), fun i => hsame (hopen h₂ hdisk2 i)⟩
  | some rel =>
    have hnew' : NewName v (vfsResolve v fs path.1).2.disk rel := by
      rw [hdisk]
      exact hnew ⟨hnone, hcreat⟩ rel hrel
    have h₂ := fat32CreateFile_sound hv le_rfl h₁ path.2 (.inl rfl)
      (by intro rel' hrel'; cases hrel.symm.trans hrel'; exact hnew')
    obtain ⟨ok, d₂, k, hio, hcr⟩ := (vfsResolve v fs path.1).2.io_spec
      (wp_fat32Create hv le_rfl (tableReads_none v) h₁.wf rel)
      fun i t hne => absurd (h₁.answers i t) hne
    obtain ⟨grow, X, hev, hw, hfound, hX⟩ := hcr.change hv le_rfl h₁.wf
      (fun hmem => path.2 (mem_of_mem_relPath hrel hmem)) (.inl rfl) hnew'
    have hcf : (fat32CreateFile v (vfsResolve v fs path.1).2 path.1).2.disk = d₂ := by
      rw [fat32CreateFile, hrel]
      exact congrArg (fun r => r.2.disk) hio
    rw [hdisk] at hev hfound hX
    have hmade : ∀ {d' : Disk}, (d' = d₂ ∨ ∃ s : Loc, v.dataStart ≤ s.1 ∧ d' = putSize d₂ s 0) →
        ∃ d₂ grow X, Opened v fs path flags d₂ grow X d' := by
      refine fun hd => ⟨d₂, grow, X, hev, hw, hfound, fun s hs => ⟨⟨hnone, hcreat⟩, rel, ?_⟩, hd⟩
      obtain ⟨dir, hwalk, hslot⟩ := hX s hs
      exact ⟨dir, hrel, hwalk, hslot⟩
    have h₃ := vfsResolve_sound hv le_rfl h₂ path.2
    have hdisk3 := (vfsResolve_cached v _ path.1).disk.trans hcf
    exact ⟨hmade (.inl hcf), hmade (.inl hdisk3), fun i => hmade (hopen h₃ hdisk3 i)⟩

/-! ## Runs -/

/-- An open: whether the descriptor table has an empty slot, the path, the flags. -/
structure OpenCall where
  free : Bool
  path : CString
  flags : Nat

/-- The state after an open. -/
def OpenCall.run (v : Vol) (fs : Fs) (c : OpenCall) : Fs := (fdOpenEx v fs c.free c.path.1 c.flags).2

/-- An open that creates a file does so under a path on which resolution and creation agree, with
memory for the vnodes. -/
def OpenCall.Agrees (v : Vol) (fs : Fs) (c : OpenCall) : Prop :=
  Creates v fs c.path c.flags → (∀ rel ∈ fat32RelPath c.path.1, PlainPath v fs.disk c.path.1 rel) ∧
    Ample fs (3 * (components c.path.1).length)

/-- The invariant of the run. -/
structure Unique (v : Vol) (m : Nat) (fs : Fs) : Prop where
  sound : Sound v v.entries m fs
  boot : Booted m (shapes fs.nodes)
  twins : NoTwins v v.entries fs.disk

omit hv in
lemma newSlot_mem {d d' : Disk} (h : NewSlot v d d' dir name s) :
    s ∈ dirSlots v (chainFrom v d v.entries dir) :=
  mem_of_search h.first

lemma OpenCall.newName (h : Unique v m fs) (c : OpenCall) (hc : c.Agrees v fs) :
    Creates v fs c.path c.flags → ∀ rel ∈ fat32RelPath c.path.1, NewName v fs.disk rel := by
  intro hcr rel hrel
  obtain ⟨hplain, hmem⟩ := hc hcr
  exact (hplain rel hrel).newName hv h.sound h.boot hrel (hmem.mono (by omega)) hcr.1

lemma OpenCall.run_unique (h : Unique v m fs) (c : OpenCall) (hc : c.Agrees v fs) :
    Unique v m (c.run v fs) := by
  have hnew := c.newName hv h hc
  have hsound := fdOpenEx_sound hv (le_refl _) h.sound c.free c.path c.flags (Or.inl rfl) hnew
  refine ⟨hsound, ?_, ?_⟩
  · exact fdOpenEx_shapes (P := Booted m) (fun _ hb => hb.vfsResolve c.path.1) fs c.free c.flags h.boot
  obtain ⟨d₂, grow, X, hopened⟩ := fdOpenEx_change hv h.sound c.free c.path c.flags hnew
  have htwins : NoTwins v v.entries d₂ := by
    refine h.twins.evolve hv (le_refl _) h.sound.wf hopened.evolves (fun s t hs ht => ?_)
      fun s o l hs hdir ho hmem t ht hname => ?_
    · -- there is one first unused slot in the one directory
      obtain ⟨-, rel, dir, hrel, hwalk, hslot⟩ := hopened.created s hs
      obtain ⟨-, rel', dir', hrel', hwalk', hslot'⟩ := hopened.created t ht
      cases hrel.symm.trans hrel'
      cases hwalk.symm.trans hwalk'
      exact Option.mem_unique hslot.first hslot'.first
    obtain ⟨hcr, rel, dir, hrel, hwalk, hslot⟩ := hopened.created s hs
    obtain ⟨⟨o', hdir', hex', hfirst'⟩, -⟩ := walkNames_owner hv (le_refl _)
      h.sound.wf _ .root dir trivial trivial hwalk
    obtain ⟨l', ho'⟩ := h.sound.wf.dir_owns hdir' hex'
    have hl' : chainFrom v fs.disk v.entries dir = l' := by
      rw [← hfirst']
      exact chainFrom_eq hv (le_refl _) ho'.2
    have hmem' := newSlot_mem hslot
    rw [hl'] at hmem'
    obtain rfl := h.sound.wf.slot_owner hv (le_refl _) ho ho' hmem hmem'
    obtain rfl := ho.2.unique hv ho'.2 (le_refl _)
    obtain ⟨hno, -⟩ := hnew hcr rel hrel dir hwalk
    rw [lookupSlot, hl'] at hno
    exact search_none_live hno t ht (hname.trans hslot.name)
  rw [OpenCall.run]
  rcases hopened.sized with heq | ⟨s, hs, heq⟩
  · rw [heq]
    exact htwins
  · rw [heq]
    exact htwins.evolve hv (le_refl _) hopened.wf (evolves_putSize hv (le_refl _) hs 0)
      (fun _ _ hx => hx.elim) fun _ _ _ hx => hx.elim

/-- An entry that an open adds. -/
lemma OpenCall.run_placed (h : Unique v m fs) (c : OpenCall) (hc : c.Agrees v fs) :
    Placed v v.entries c.path.1 fs (c.run v fs) := by
  have hnew := c.newName hv h hc
  have hafter := c.run_unique hv h hc
  obtain ⟨d₂, grow, X, hopened⟩ := fdOpenEx_change hv h.sound c.free c.path c.flags hnew
  -- the new entry is the one created
  have hx : ∀ t, Live v (c.run v fs).disk v.entries t → ¬ Live v fs.disk v.entries t → X t := by
    intro t ht hnot
    have ht2 : Live v d₂ v.entries t := by
      rcases hopened.sized with heq | ⟨s, hs, heq⟩
      · rwa [OpenCall.run, heq] at ht
      · rw [OpenCall.run, heq] at ht
        exact ((evolves_putSize hv le_rfl hs 0).live_inv hv le_rfl hopened.wf
          ht).resolve_right fun hx => hx.1
    exact ((hopened.evolves.live_inv hv le_rfl h.sound.wf ht2).resolve_left hnot).1
  refine ⟨fun t ht hnot => ?_, fun t ht hnot => ?_⟩
  · obtain ⟨hcr, rel, dir, hrel, hwalk, hslot⟩ := hopened.created t (hx t ht hnot)
    exact ⟨dir, ((hc hcr).1 rel hrel).namedDir hrel hwalk, newSlot_mem hslot⟩
  obtain ⟨hcr, rel, dir, hrel, hwalk, hslot⟩ := hopened.created t (hx t ht hnot)
  obtain ⟨hplain, hmem⟩ := hc hcr
  have hpath := hplain rel hrel
  obtain ⟨hname, hnames⟩ := hpath.isPlain hrel c.path.2
  obtain ⟨hno, -⟩ := hnew hcr rel hrel dir hwalk
  have hfound := hslot.found hno
  rw [take_of_length_le hname.short] at hfound
  obtain ⟨⟨o, hdir, hex, hfirst⟩, hkept⟩ := walkNames_owner hv le_rfl
    h.sound.wf _ .root dir trivial trivial hwalk
  obtain ⟨l, ho⟩ := h.sound.wf.dir_owns hdir hex
  have hchain := hopened.evolves.dir_chain hdir ho
  have hl : chainFrom v fs.disk v.entries dir = l := by
    rw [← hfirst]
    exact chainFrom_eq hv le_rfl ho.2
  have hwalk2 := hkept hopened.evolves hopened.lookups
  have hslot2 : lookupSlot v d₂ dir (splitLast rel).2 = some t := by
    rw [lookupSlot, ← hfirst, chainFrom_eq hv le_rfl hchain, ← hl]
    exact hfound
  have hfinal : walkNames v (c.run v fs).disk v.root (components ((splitLast rel).1.getD [])) =
      some dir ∧ lookupSlot v (c.run v fs).disk dir (splitLast rel).2 = some t := by
    rw [OpenCall.run]
    rcases hopened.sized with heq | ⟨s, hs, heq⟩
    · rw [heq]
      exact ⟨hwalk2, hslot2⟩
    have hev := evolves_putSize (d := d₂) hv (le_refl v.entries) hs 0
    obtain ⟨⟨o2, hdir2, hex2, hfirst₂⟩, hkept2⟩ := walkNames_owner hv
      le_rfl hopened.wf _ .root dir trivial trivial hwalk2
    rw [heq]
    refine ⟨hkept2 hev (keepsLookups_putSize d₂ s 0), ?_⟩
    rw [← hfirst₂] at hslot2 ⊢
    obtain ⟨mp, ho2, hs2, -⟩ := lookupSlot_owner hv le_rfl hopened.wf hdir2 hex2 hslot2
    rw [lookupSlot, chainFrom_eq hv le_rfl (hev.dir_chain hdir2 ho2)]
    have hkeep : KeepsLookups v v.entries d₂ (putSize d₂ s 0) := keepsLookups_putSize d₂ s 0
    exact hkeep o2 mp _ t hdir2 ho2 hs2
  have hlen : (components ((splitLast rel).1.getD [])).length + 1 ≤ (components c.path.1).length := by
    rw [hpath.path_eq hrel]
    simp
  have hmem' : Ample (c.run v fs) (components c.path.1).length :=
    Ample.fdOpenEx c.path.1 c.free c.flags (hmem.mono (by omega))
  exact vfsResolve_finds hv le_rfl hafter.sound hafter.boot (hpath.path_eq hrel) hname hnames
    hfinal.1 hfinal.2 (hmem'.mono hlen)

/-- **Opens create entries once and where the path says**, in every run of opens whose creations are
under paths on which resolution and creation agree. -/
theorem opens_create_once {fs₀ : Fs} (h₀ : Mounted v v.entries m fs₀) (hb : Booted m (shapes fs₀.nodes))
    (ht : NoTwins v v.entries fs₀.disk)
    (h : Reach (· = fs₀) (fun s c => c.Agrees v s) (OpenCall.run v) fs) :
    NoTwins v v.entries fs.disk ∧
      ∀ c : OpenCall, c.Agrees v fs → Placed v v.entries c.path.1 fs (c.run v fs) := by
  have hinv : Unique v m fs := h.invariant (Unique v m)
    (fun s hs => by rw [hs]; exact ⟨h₀.sound, hb, ht⟩) fun s c hs hc => c.run_unique hv hs hc
  exact ⟨hinv.twins, fun c hc => c.run_placed hv hinv hc⟩

end

/-! ## On the small volume -/

instance (v : Vol) (d : Disk) (path rel : List UInt8) : Decidable (PlainPath v d path rel) :=
  decidable_of_iff (_ ∧ _ ∧ _ ∧ _)
    ⟨fun ⟨h1, h2, h3, h4⟩ => ⟨h1, h2, h3, h4⟩, fun h => ⟨h.1, h.2, h.3, h.4⟩⟩

instance (fs : Fs) (n : Nat) : Decidable (Ample fs n) :=
  decidable_of_iff (_ ∧ _) ⟨fun ⟨h1, h2⟩ => ⟨h1, h2⟩, fun h => ⟨h.1, h.2⟩⟩

instance (v : Vol) (fs : Fs) (c : OpenCall) : Decidable (c.Agrees v fs) :=
  inferInstanceAs (Decidable (_ → (∀ rel ∈ fat32RelPath c.path.1, _) ∧ _))

lemma Flat.noTwins {v : Vol} (hv : v.Shaped) {d : Disk} {lim : Nat} (hlim : lim ≤ v.entries)
    {r : List Nat} {files : List (Loc × List Nat)} (h : Flat v d lim r files)
    (hnames : ∀ s ∈ liveSlots v d r, ∀ t ∈ liveSlots v d r,
      (entryAt d s).name = (entryAt d t).name → s = t) : NoTwins v lim d := by
  intro o l hdir ho
  cases o with
  | root =>
    obtain rfl := ho.2.unique hv h.chain hlim
    exact hnames
  | entry s =>
    obtain ⟨l', hp⟩ := (h.live_iff hv hlim s).mp ho.1.1
    exact absurd hdir (h.fileOf hv hlim hp).2.2.1

lemma mountNodes_booted : Booted 2 (shapes mountNodes) where
  root := ⟨_, rfl, rfl, rfl⟩
  mnt := by
    refine ⟨1, _, ⟨⟨_, rfl, rfl, rfl⟩, ?_⟩, rfl, rfl, rfl, ⟨_, rfl, rfl, rfl⟩, ?_⟩
    · intro j s hj hs
      match j with
      | 2 => cases hs; exact fun hc => nomatch hc.1
      | j + 3 => cases hs
    · intro j s hj hs
      match j with
      | j + 3 => cases hs
  below := by
    intro i s p ps hi hp hps hf
    match i with
    | 0 => cases hi; cases hp
    | 1 => cases hi; cases hp; cases hps; cases hf
    | 2 => cases hi; rfl
    | i + 3 => cases hi
  inside := by
    intro i s p hi hp
    match i with
    | 0 => cases hi; cases hp
    | 1 => cases hi; cases hp; rfl
    | 2 => cases hi; cases hp; rfl
    | i + 3 => cases hi

lemma erasedFirst_noTwins : NoTwins smallVol 128 erasedFirst :=
  erasedFirst_flat.noTwins smallVol_shaped le_rfl (by decide +kernel)

/-- An open of `B` that creates it if need be. -/
def openB : OpenCall := ⟨true, pathB, 66⟩

theorem opens_create_once_twice :
    NoTwins smallVol 128 ([openB, openB].foldl (OpenCall.run smallVol) (mountedOn erasedFirst)).disk ∧
      Placed smallVol 128 (below [66]) (mountedOn erasedFirst)
        (openB.run smallVol (mountedOn erasedFirst)) := by
  have h₀ : Reach (· = mountedOn erasedFirst) (fun s c => c.Agrees smallVol s) (OpenCall.run smallVol)
      (mountedOn erasedFirst) := .start rfl
  have h := h₀.obeys (show Obeys _ _ _ [openB, openB] by decide +kernel)
  have hm := mountedOn_mounted erasedFirst_wf
  exact ⟨(opens_create_once smallVol_shaped hm mountNodes_booted erasedFirst_noTwins h).1,
    (opens_create_once smallVol_shaped hm mountNodes_booted erasedFirst_noTwins h₀).2 openB
      (by decide +kernel)⟩

/-- `LONGFILENAME1` is created beside `LONGFILE`, under the same 8.3 name. -/
theorem long_name_makes_twins :
    Mounted smallVol 128 2 (mountedOn erasedFirst) ∧ Booted 2 (shapes (mountedOn erasedFirst).nodes) ∧
      NoTwins smallVol 128 erasedFirst ∧
      ¬ NoTwins smallVol 128
        (OpenCall.run smallVol (mountedOn erasedFirst) ⟨true, ⟨below longFileName1, by decide⟩, 66⟩).disk := by
  refine ⟨mountedOn_mounted erasedFirst_wf, mountNodes_booted, erasedFirst_noTwins, fun h => ?_⟩
  generalize hd : (OpenCall.run smallVol (mountedOn erasedFirst)
    ⟨true, ⟨below longFileName1, by decide⟩, 66⟩).disk = d at h
  have hfacts : checkChain smallVol d 128 2 [2] = true ∧ (2, 0) ∈ liveSlots smallVol d [2] ∧
      (2, 1) ∈ liveSlots smallVol d [2] ∧ (entryAt d (2, 0)).name = (entryAt d (2, 1)).name := by
    rw [← hd]
    decide +kernel
  obtain ⟨hroot, h0, h1, hname⟩ := hfacts
  have hdir : Owner.root.IsDir d := trivial
  have ho : Owns smallVol d 128 .root [2] := ⟨trivial, chainAt_of_check (by decide) hroot⟩
  have heq := h .root [2] hdir ho (2, 0) h0 (2, 1) h1 hname
  revert heq
  decide

end FermiOs.Fat32
