import FermiOs.Fs.Fat32.Runs

/-!
# Spellings of a name

`find_child` compares cached names byte for byte, `fat32_lookup` by their 8.3 form, so that one entry
gets a vnode for each spelling under which it is looked up. If the paths of a run spell every 8.3 name
in one way, each entry has one vnode, in whatever state the run is.
-/

namespace FermiOs.Fat32
open Library
variable {d : Disk} {e : Loc} {fs : Fs} {i j p : Nat} {name : List UInt8} {o o' : Owner} {s : Shape}
  {v : Vol} {xs : List (List UInt8)}

/-- The directory entry a vnode of the file system stands for: the one its name is found in. -/
def entryOf (v : Vol) (fs : Fs) (i : Nat) : Option Loc :=
  (fs.nodes[i]?).bind fun node =>
    node.priv.bind fun _ =>
      node.parent.bind fun p =>
        (fs.nodes[p]?).bind fun dir =>
          dir.priv.bind fun pd => lookupSlot v fs.disk pd.first node.name

/-- The path spells every 8.3 name as `spell` does. -/
def Spelt (spell : List UInt8 → List UInt8) (path : CString) : Prop :=
  ∀ x ∈ components path.1, spell (to83 x) = x

/-- Vnodes of the file system are spelt as `spell` does, and no two of one directory have one name. -/
structure OneName (spell : List UInt8 → List UInt8) (m : Nat) (T : Nat → Option Shape) : Prop where
  spelt : ∀ i s, T i = some s → s.first.isSome = true → i ≠ m → spell (to83 s.name) = s.name
  unique : ∀ i j s s', T i = some s → T j = some s' → s.first.isSome = true →
    s'.first.isSome = true → i ≠ m → j ≠ m → s.parent = s'.parent → s.name = s'.name → i = j

/-! ## Names in the cache

A vnode is added only when the cache has no vnode of that name in the directory. -/

lemma cachedChild_none {nodes : List Vnode} {dir : Nat} (h : cachedChild nodes dir name = none)
    {node : Vnode} (hi : nodes[i]? = some node) (hp : node.parent = some dir) :
    node.name ≠ name := by
  intro hname
  rw [cachedChild, List.find?_eq_none] at h
  have hlt := (List.getElem?_eq_some_iff.mp hi).1
  refine h i (List.mem_reverse.mpr (List.mem_range.mpr hlt)) ?_
  rw [hi]
  exact decide_eq_true ⟨hp, hname⟩

section
variable {spell : List UInt8 → List UInt8} {m : Nat} (h : OneName spell m (shapes fs.nodes))
include h

lemma OneName.findChild (dir : Nat) (node : Vnode) (hname : spell (to83 name) = name) :
    OneName spell m (shapes (findChild v fs dir node name).2.nodes) := by
  refine findChild_rule (P := fun fs' => OneName spell m (shapes fs'.nodes)) (fun _ _ _ => h)
    fun _ _ child _ hc _ hcn hcp _ => ?_
  -- no vnode of that directory has the name
  have hnew : ∀ i s, shapes fs.nodes i = some s → s.parent = some dir → s.name ≠ name := by
    intro i s hi hp
    obtain ⟨n, hn, rfl⟩ := shapes_eq_some.mp hi
    exact cachedChild_none hc hn hp
  refine ⟨fun i s hi hf him => ?_, fun i j s s' hi hj hf hf' him hjm hp hn => ?_⟩
  · rcases shapes_append_inv hi with hold | ⟨-, rfl⟩
    · exact h.spelt i s hold hf him
    · rw [Vnode.shape, hcn]
      exact hname
  rcases shapes_append_inv hi with hold | ⟨rfl, rfl⟩
  · rcases shapes_append_inv hj with hold' | ⟨rfl, rfl⟩
    · exact h.unique i j s s' hold hold' hf hf' him hjm hp hn
    · exact absurd (hn.trans hcn) (hnew i s hold (hp.trans hcp))
  · rcases shapes_append_inv hj with hold' | ⟨rfl, -⟩
    · exact absurd (hn.symm.trans hcn) (hnew j s' hold' (hp.symm.trans hcp))
    · rfl

lemma OneName.vfsResolve {path : CString}
    (hpath : Spelt spell path) : OneName spell m (shapes (vfsResolve v fs path.1).2.nodes) :=
  resolveFrom_rule (P := fun fs => OneName spell m (shapes fs.nodes)) _
    (fun _ cur node name hmem _ _ h => h.findChild cur node (hpath name hmem)) fs 0 h

end

/-! ## Calls

Behind the resolution of its path a call changes at most the sizes of vnodes. -/

section
variable {P : (Nat → Option Shape) → Prop}

section
variable (v : Vol) (fs : Fs)

lemma fdWrite_shapes (f : Nat) (data : List UInt8) :
    shapes (fdWrite v fs f data).2.nodes = shapes fs.nodes := by
  rcases fdWrite_cases v fs f data with ⟨r, -, heq⟩ | ⟨file, node, pd, -, -, -, -, -, -, heq⟩
  · rw [heq]
  rw [heq]
  generalize hio : fs.io (fat32FileWrite v (entryPath fs.nodes file.vnode) pd.first file.offset data) =
    res
  have hnodes : res.2.nodes = fs.nodes := by rw [← hio]; rfl
  obtain ⟨r, fs'⟩ := res
  cases r with
  | ok n =>
    rw [shapes_setSize, hnodes]
  | err => exact congrArg shapes hnodes
  | fault => exact congrArg shapes hnodes

lemma fdRead_nodes (f count : Nat) : (fdRead v fs f count).2.nodes = fs.nodes := by
  rcases fdRead_cases v fs f count with ⟨r, grants, -, heq⟩ | ⟨file, node, pd, -, -, -, -, -, heq⟩
  · rw [heq]
  rw [heq]
  generalize hio : Fs.io { fs with grants := fs.grants.tail } (fat32FileRead v pd file.offset count) =
    res
  have hnodes : res.2.nodes = fs.nodes := by rw [← hio]; rfl
  obtain ⟨r, fs'⟩ := res
  cases r with
  | none => exact hnodes
  | some bytes => exact hnodes

lemma openNode_shapes (free : Bool) (i flags : Nat) :
    shapes (openNode v fs free i flags).2.nodes = shapes fs.nodes := by
  refine openNode_rule (Q := fun fs' => shapes fs'.nodes = shapes fs.nodes) fun fs' hfs' => ?_
  rw [(openFile_same fs' free i flags).2]
  refine and_self_iff.mpr ?_
  rcases hfs' with rfl | rfl
  · rfl
  refine fat32FileTruncate_rule (Q := fun fs' => shapes fs'.nodes = shapes fs.nodes) rfl ?_
  rintro rel nodes (rfl | rfl)
  · rfl
  · exact shapes_setSize ..

end

/-- What the resolution of a path keeps of the vnodes' shapes, an open with that path keeps. -/
lemma fdOpenEx_shapes {path : List UInt8}
    (hstep : ∀ fs, P (shapes fs.nodes) → P (shapes (vfsResolve v fs path).2.nodes)) (fs : Fs)
    (free : Bool) (flags : Nat) (h : P (shapes fs.nodes)) :
    P (shapes (fdOpenEx v fs free path flags).2.nodes) := by
  have hnode : ∀ fs' i, P (shapes fs'.nodes) → P (shapes (openNode v fs' free i flags).2.nodes) := by
    intro fs' i h'
    rwa [openNode_shapes]
  refine fdOpenEx_rule (Q := fun fs' => P (shapes fs'.nodes)) h (hstep fs h)
    (fun i _ => hnode _ i (hstep fs h)) ?_
  rintro - - fs2 rfl
  have h2 := hstep fs h
  rw [← (fat32CreateFile_nodes v _ path).1] at h2
  exact ⟨h2, hstep _ h2, fun i => hnode _ i (hstep _ h2)⟩

/-- What the resolution of paths keeps of the vnodes' shapes, every call keeps. -/
lemma FileCall.run_shapes (c : FileCall)
    (hstep : ∀ free path flags, c = .open free path flags → ∀ fs, P (shapes fs.nodes) →
      P (shapes (vfsResolve v fs path.1).2.nodes)) (fs : Fs) (h : P (shapes fs.nodes)) :
    P (shapes (c.run v fs).nodes) := by
  cases c with
  | «open» free path flags => exact fdOpenEx_shapes (hstep free path flags rfl) fs free flags h
  | read f count =>
    rw [FileCall.run, fdRead_nodes]
    exact h
  | write f data =>
    rw [FileCall.run, fdWrite_shapes]
    exact h
  | seek f offset whence =>
    rw [FileCall.run]
    rcases fdSeek_cases fs f offset whence with heq | ⟨file, n, -, heq⟩
    · rw [heq]
      exact h
    · rw [heq]
      exact h

end

/-! ## One vnode for each entry

Two vnodes for one entry lie in directories with the same chain, so that their parents stand for one
entry too, up to the mount point; and in one directory they have the same spelling. -/

section
variable (hv : v.Shaped) {lim m : Nat} (hlim : lim ≤ v.entries) {fs₀ : Fs}
  {spell : List UInt8 → List UInt8}
include hv hlim

lemma Wf.owner_eq (hw : Wf v d lim) {l l' : List Nat} (ho : Owns v d lim o l)
    (ho' : Owns v d lim o' l') (hfirst : o.first v d = o'.first v d) : o = o' := by
  by_contra hne
  have hl' := ho'.2
  rw [← hfirst] at hl'
  obtain rfl := ho.2.unique hv hl' hlim
  exact hw.apart o o' l l ho ho' hne _ ho.2.first_mem ho.2.first_mem

omit hv hlim in
lemma OneName.sibling {T : Nat → Option Shape} (h : OneName spell m T) {s' : Shape}
    {xs' : List (List UInt8)} {mp mp' : List Nat} (hi : T i = some s) (hj : T j = some s')
    (him : i ≠ m) (hjm : j ≠ m) (ht : TiedTo v lim d T m s p xs o mp e)
    (ht' : TiedTo v lim d T m s' p xs' o' mp' e) : i = j := by
  have hf : s.first.isSome = true := by rw [ht.first]; rfl
  have hf' : s'.first.isSome = true := by rw [ht'.first]; rfl
  refine h.unique i j s s' hi hj hf hf' him hjm (ht.parent.trans ht'.parent.symm) ?_
  rw [← h.spelt i s hi hf him, ← h.spelt j s' hj hf' hjm, ← ht.live.2.2, ht'.live.2.2]

/-- The vnode of a directory other than the mount point does not stand for the root. -/
lemma Sound.not_root (h : Sound v lim m fs) (hp : shapes fs.nodes p = some s)
    (hdir : s.type = .dir) (hpm : p ≠ m) : s.first ≠ some v.root := by
  intro hfirst
  obtain ⟨q, xs, o, mp, e, ht⟩ := h.tied.node p s v.root hp hfirst hpm
  obtain ⟨l, hl⟩ := h.wf.dir_owns (o := .entry e) (ht.entry_isDir hdir) ⟨ht.live.1, ht.live.2.1⟩
  obtain ⟨r, hr⟩ := h.wf.dir_owns (o := .root) trivial trivial
  have heq : (entryAt fs.disk e).first = v.root := Option.mem_unique ht.first hfirst
  exact Owner.noConfusion (h.wf.owner_eq hv hlim hl hr heq)

/-- Two vnodes of directories with one chain are the same. -/
lemma Sound.dir_unique (h : Sound v lim m fs) (hn : OneName spell m (shapes fs.nodes))
    (hu : Under (shapes fs.nodes) m p xs) :
    ∀ {p' c : Nat} {s s' : Shape}, shapes fs.nodes p = some s → shapes fs.nodes p' = some s' →
      s.type = .dir → s'.type = .dir → s.first = some c → s'.first = some c → p = p' := by
  induction hu with
  | mount =>
    intro p' c s s' hp hp' _ hd' hf hf'
    obtain ⟨ms, hms, -, hmf⟩ := h.tied.mount.node
    obtain rfl := Option.mem_unique hp hms
    by_contra hne
    exact h.not_root hv hlim hp' hd' (Ne.symm hne) (hf'.trans (hf.symm.trans hmf))
  | @child q p xs _ hu hi hq _ hpm ih =>
    intro p' c s s' hp hp' hd hd' hf hf'
    obtain rfl := Option.mem_unique hi hp
    have hpm' : p' ≠ m := by
      rintro rfl
      obtain ⟨ms, hms, -, hmf⟩ := h.tied.mount.node
      obtain rfl := Option.mem_unique hp' hms
      exact h.not_root hv hlim hp hd hpm (hf.trans (hf'.symm.trans hmf))
    obtain ⟨q1, _, o, mp, e, ht⟩ := h.tied.node p _ c hp hf hpm
    obtain ⟨q', _, o', mp', e', ht'⟩ := h.tied.node p' _ c hp' hf' hpm'
    obtain rfl : q1 = q := Option.mem_unique ht.parent hq
    -- the same first cluster, hence the same entry
    obtain ⟨l, hl⟩ := h.wf.dir_owns (o := .entry e) (ht.entry_isDir hd) ⟨ht.live.1, ht.live.2.1⟩
    obtain ⟨l', hl'⟩ := h.wf.dir_owns (o := .entry e') (ht'.entry_isDir hd') ⟨ht'.live.1, ht'.live.2.1⟩
    have hee : e = e' := by
      refine Owner.entry.inj (h.wf.owner_eq hv hlim hl hl' (Option.some.inj ?_))
      exact ht.first.symm.trans (hf.trans (hf'.symm.trans ht'.first))
    subst hee
    -- the parents' directories share that slot
    obtain rfl := h.wf.slot_owner hv hlim ht.owns ht'.owns (mem_of_search ht.found)
      (mem_of_search ht'.found)
    obtain ⟨ps, hps, hpd, hpf⟩ := ht.dir
    obtain ⟨ps', hps', hpd', hpf'⟩ := ht'.dir
    obtain rfl := ih hps hps' hpd hpd' hpf hpf'
    exact hn.sibling hp hp' hpm hpm' ht ht'

variable (h : Sound v lim m fs)
include h

omit hv hlim in
lemma Sound.entryOf_mount : entryOf v fs m = none := by
  obtain ⟨a, b, s, sa, sb, hs, -, hp, ha, -, hpa, hb, hpb⟩ := h.tied.mount.path
  have hnot : sa.first = none := by
    cases hf : sa.first with
    | none => rfl
    | some c =>
      exfalso
      have hbm : b ≠ m := by
        rintro rfl
        obtain rfl := Option.mem_unique hs hb
        rw [hp] at hpb
        cases hpb
      by_cases ham : a = m
      · subst ham
        obtain rfl := Option.mem_unique hs ha
        obtain rfl := Option.mem_unique hp hpa
        exact hbm rfl
      obtain ⟨p, xs, o, mp, e, ht⟩ := h.tied.node a sa c ha hf ham
      obtain rfl : p = b := Option.mem_unique ht.parent hpa
      cases ht.under with
      | mount => exact hbm rfl
      | child _ hi hq _ _ =>
        obtain rfl := Option.mem_unique hi hb
        rw [hq] at hpb
        cases hpb
  obtain ⟨node, hn, rfl⟩ := shapes_eq_some.mp hs
  obtain ⟨an, han, rfl⟩ := shapes_eq_some.mp ha
  have hp' : node.parent = some a := hp
  have hap : an.priv = none := Option.map_eq_none_iff.mp hnot
  simp [entryOf, hn, hp', han, hap]

/-- The entry a vnode stands for is the one it is tied to. -/
lemma Sound.tied_entry (he : entryOf v fs i = some e) :
    i ≠ m ∧ ∃ s p xs o mp, shapes fs.nodes i = some s ∧
      TiedTo v lim fs.disk (shapes fs.nodes) m s p xs o mp e := by
  have him : i ≠ m := by
    rintro rfl
    rw [h.entryOf_mount] at he
    cases he
  refine ⟨him, ?_⟩
  simp only [entryOf, Option.bind_eq_some_iff] at he
  obtain ⟨node, hn, pd, hpr, p, hp, pn, hpn, ppd, hpp, he⟩ := he
  obtain ⟨p', xs, o, mp, e', ht⟩ := h.tied.node i _ _ (shapes_of_node hn) (Vnode.first_of_priv hpr) him
  obtain rfl : p' = p := Option.mem_unique ht.parent hp
  rw [lookupSlot, chainFrom_eq hv hlim (ht.chain (shapes_of_node hpn) (Vnode.first_of_priv hpp))] at he
  obtain rfl := Option.mem_unique he ht.found
  exact ⟨_, _, xs, o, mp, shapes_of_node hn, ht⟩

lemma Sound.one_vnode (hn : OneName spell m (shapes fs.nodes)) (hi : entryOf v fs i = some e)
    (hj : entryOf v fs j = some e) : i = j := by
  obtain ⟨him, s, p, xs, o, mp, hs, ht⟩ := h.tied_entry hv hlim hi
  obtain ⟨hjm, s', p', xs', o', mp', hs', ht'⟩ := h.tied_entry hv hlim hj
  obtain rfl := h.wf.slot_owner hv hlim ht.owns ht'.owns (mem_of_search ht.found)
    (mem_of_search ht'.found)
  obtain ⟨ps, hps, hpd, hpf⟩ := ht.dir
  obtain ⟨ps', hps', hpd', hpf'⟩ := ht'.dir
  obtain rfl := h.dir_unique hv hlim hn ht.under hps hps' hpd hpd' hpf hpf'
  exact hn.sibling hs hs' him hjm ht ht'

end

/-! ## Runs -/

/-- The steps of a run: a path is resolved, or a file call is made. -/
inductive NameCall
  | resolve (path : CString)
  | file (c : FileCall)

/-- The state after a step. -/
def NameCall.run (v : Vol) (fs : Fs) : NameCall → Fs
  | .resolve path => (vfsResolve v fs path.1).2
  | .file c => c.run v fs

/-- The paths of a step, spelt as `spell` does. -/
def NameCall.Spelt (spell : List UInt8 → List UInt8) : NameCall → Prop
  | .resolve path => Fat32.Spelt spell path
  | .file (.open _ path _) => Fat32.Spelt spell path
  | .file _ => True

/-- File calls are orderly. -/
def NameCall.Orderly (v : Vol) (fs : Fs) : NameCall → Prop
  | .resolve _ => True
  | .file c => Fat32.Orderly v fs c

instance (spell : List UInt8 → List UInt8) (c : NameCall) : Decidable (c.Spelt spell) := by
  rcases c with _ | (_ | _ | _ | _) <;> dsimp only [NameCall.Spelt, Fat32.Spelt] <;> infer_instance

instance (v : Vol) (fs : Fs) (c : NameCall) : Decidable (c.Orderly v fs) :=
  match c with
  | .resolve _ => inferInstanceAs (Decidable True)
  | .file c => inferInstanceAs (Decidable (Fat32.Orderly v fs c))

section
variable (hv : v.Shaped) {m : Nat} {fs₀ : Fs} {spell : List UInt8 → List UInt8}
include hv

lemma NameCall.run_sound (h : Sound v v.entries m fs ∧ OneName spell m (shapes fs.nodes))
    (c : NameCall) (hs : c.Spelt spell) (ho : c.Orderly v fs) :
    Sound v v.entries m (c.run v fs) ∧ OneName spell m (shapes (c.run v fs).nodes) := by
  cases c with
  | resolve path => exact ⟨vfsResolve_sound hv (le_refl _) h.1 path.2, h.2.vfsResolve hs⟩
  | file c =>
    refine ⟨c.run_sound hv (le_refl _) h.1 (Or.inl rfl) ho, ?_⟩
    refine c.run_shapes (P := OneName spell m) ?_ fs h.2
    rintro free path flags rfl fs' h'
    exact h'.vfsResolve hs

/-- **One entry, one vnode**, in every run that is orderly and spells every 8.3 name in one way. -/
theorem one_vnode_for_entry (h₀ : Mounted v v.entries m fs₀)
    (h : Reach (· = fs₀) (fun s c => c.Spelt spell ∧ c.Orderly v s) (NameCall.run v) fs) {i j : Nat}
    {e : Loc} (hi : entryOf v fs i = some e) (hj : entryOf v fs j = some e) : i = j := by
  have hnone : OneName spell m (shapes fs₀.nodes) := by
    have honly : ∀ i s, shapes fs₀.nodes i = some s → s.first.isSome = true → i = m := by
      intro i s hi hf
      obtain ⟨node, hn, rfl⟩ := shapes_eq_some.mp hi
      exact h₀.only i node hn (by simpa [Vnode.shape] using hf)
    exact ⟨fun i s hs hf him => absurd (honly i s hs hf) him,
      fun i _ s _ hs _ hf _ him _ => absurd (honly i s hs hf) him⟩
  have hinv := h.invariant (fun fs => Sound v v.entries m fs ∧ OneName spell m (shapes fs.nodes))
    (fun s hs => by rw [hs]; exact ⟨h₀.sound, hnone⟩)
    fun s c hs hg => c.run_sound hv hs hg.1 hg.2
  exact hinv.1.one_vnode hv (le_refl _) hinv.2 hi hj

end

/-- The file is resolved, opened and written under one spelling. -/
def oneSpelling : List NameCall :=
  [.resolve pathA, .file (.open true pathA 2), .file (.write 0 [7])]

/-- `mnt`, `fat32` and `A`. -/
def spellSmall (name : List UInt8) : List UInt8 :=
  (mountNames.find? fun x => to83 x = name).getD [65]

theorem one_vnode_for_entry_small :
    ∃ fs, fs = oneSpelling.foldl (NameCall.run smallVol) (mountedOn twoClusters) ∧
      entryOf smallVol fs 3 = some (2, 0) ∧ ∀ j, entryOf smallVol fs j = some (2, 0) → j = 3 := by
  refine ⟨_, rfl, by decide +kernel, ?_⟩
  intro j hj
  have h₀ : Reach (· = mountedOn twoClusters) (fun s c => c.Spelt spellSmall ∧ c.Orderly smallVol s)
      (NameCall.run smallVol) (mountedOn twoClusters) := .start rfl
  have h := h₀.obeys (show Obeys _ _ _ oneSpelling by decide +kernel)
  exact one_vnode_for_entry smallVol_shaped (mountedOn_mounted twoClusters_wf) h hj (by decide +kernel)

/-- The file is opened as `A` and as `a`, and written through the first descriptor. -/
def twoSpellings : List NameCall :=
  [.file (.open true pathA 2), .file (.open true ⟨below [97], by decide⟩ 2),
    .file (.write 0 [7])]

/-- There are two vnodes for the one entry, and a write through one leaves the other with the old
size. -/
theorem two_spellings_two_vnodes : Mounted smallVol 128 2 (mountedOn twoClusters) ∧
      Obeys (fun s c => c.Orderly smallVol s) (NameCall.run smallVol) (mountedOn twoClusters)
        twoSpellings ∧
      ∃ fs, fs = twoSpellings.foldl (NameCall.run smallVol) (mountedOn twoClusters) ∧
        entryOf smallVol fs 3 = some (2, 0) ∧ entryOf smallVol fs 4 = some (2, 0) ∧
        fs.files.map File.vnode = [3, 4] ∧ fs.nodes[3]?.map Vnode.size = some 1 ∧
        fs.nodes[4]?.map Vnode.size = some 1024 :=
  ⟨mountedOn_mounted twoClusters_wf, by decide +kernel, _, rfl, by decide +kernel⟩

end FermiOs.Fat32
