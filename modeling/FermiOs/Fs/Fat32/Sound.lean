import FermiOs.Fs.Fat32.Tree

/-!
# Sound states of the file system

The invariant of whole runs: the volume is well formed, every vnode stands for the entry it was found
in, and a cached size fits the chain. Resolving paths keeps it, as do creating, writing and truncating
files as long as sizes and new entries are in order.
-/

namespace FermiOs.Fat32
open Library List
variable {P : Fs → Prop} {X : Loc → Prop} {dir i : Nat} {fs : Fs} {grow : Owner → List Nat}
  {mp : List Nat} {name : List UInt8} {node : Vnode} {nodes : List Vnode} {pd : Priv} {v : Vol}

/-! ## Vnodes and entries -/

/-- Vnode `i`, with shape `s`, stands for the entry in slot `e` of the directory `o` with chain `mp`,
for which its parent `p` stands. -/
structure TiedTo (v : Vol) (lim : Nat) (d : Disk) (T : Nat → Option Shape) (m : Nat) (s : Shape)
    (p : Nat) (xs : List (List UInt8)) (o : Owner) (mp : List Nat) (e : Loc) : Prop where
  parent : s.parent = some p
  under : Under T m p xs
  dir : ∃ ps, T p = some ps ∧ ps.type = .dir ∧ ps.first = some (o.first v d)
  isDir : o.IsDir d
  owns : Owns v d lim o mp
  found : search (lookupVerdict (to83 s.name)) d (dirSlots v mp) = some e
  first : s.first = some (entryAt d e).first
  type : s.type = if (entryAt d e).attr &&& 0x10 = 0 then .reg else .dir
  name : IsComponent s.name
  short : s.name.length ≤ 12

/-- Every vnode of the file system but the mount point stands for an entry. -/
structure Tied (v : Vol) (lim : Nat) (d : Disk) (T : Nat → Option Shape) (m : Nat) : Prop where
  mount : IsMount v T m
  node : ∀ i s c, T i = some s → s.first = some c → i ≠ m →
    ∃ p xs o mp e, TiedTo v lim d T m s p xs o mp e

/-- The cached size of a file fits its chain. -/
def Sized (v : Vol) (lim : Nat) (d : Disk) (nodes : List Vnode) : Prop :=
  ∀ (i : Nat) (node : Vnode) (pd : Priv), nodes[i]? = some node → node.priv = some pd → node.type = .reg →
    (pd.first = 0 ∧ pd.size = 0) ∨ ∃ l, ChainAt v d lim pd.first l ∧ pd.size ≤ capacity v l

/-- The invariant, for the mount point `m`. -/
structure Sound (v : Vol) (lim m : Nat) (fs : Fs) : Prop where
  wf : Wf v fs.disk lim
  answers : ∀ k t, fs.device k t = .ok
  tied : Tied v lim fs.disk (shapes fs.nodes) m
  sized : Sized v lim fs.disk fs.nodes

section
variable {lim m : Nat} {d d' : Disk} {T T' : Nat → Option Shape} {s : Shape} {p : Nat}
  {xs : List (List UInt8)} {o : Owner} {e : Loc}

/-- The chain of the directory for which the parent stands. -/
lemma TiedTo.chain {ps : Shape} {first : Nat} (h : TiedTo v lim d T m s p xs o mp e)
    (hps : T p = some ps) (hfirst : ps.first = some first) : ChainAt v d lim first mp := by
  obtain ⟨ps', hps', -, hfirst'⟩ := h.dir
  obtain rfl := Option.mem_unique hps hps'
  rw [Option.mem_unique hfirst hfirst']
  exact h.owns.2

section
variable (h : TiedTo v lim d T m s p xs o mp e)
include h

lemma TiedTo.live : Live v d lim e ∧ ¬ (entryAt d e).IsDot ∧ (entryAt d e).name = to83 s.name := by
  obtain ⟨hlive, hname⟩ := live_of_lookup h.found
  refine ⟨live_of_owner h.isDir h.owns hlive, fun hdot => ?_, hname⟩
  apply to83_head s.name
  rw [← hname, head_name, hdot]

lemma TiedTo.mono (hT : ∀ i s, T i = some s → T' i = some s) : TiedTo v lim d T' m s p xs o mp e := by
  obtain ⟨ps, hps, hdir⟩ := h.dir
  exact { h with under := h.under.mono hT, dir := ⟨ps, hT p ps hps, hdir⟩ }

lemma TiedTo.entry_isDir (hdir : s.type = .dir) : (entryAt d e).IsDir := by
  intro h0
  have htype := h.type
  rw [hdir, if_pos h0] at htype
  exact VnodeType.noConfusion htype

end

/-- The vnode of a directory stands for a directory of the volume. -/
lemma Tied.directory (h : Tied v lim d T m) {c : Nat} (hi : T i = some s) (hc : s.first = some c)
    (htype : s.type = .dir) : ∃ xs o, Under T m i xs ∧ (o : Owner).IsDir d ∧ o.Exists v d lim ∧
      o.first v d = c := by
  by_cases him : i = m
  · subst him
    obtain ⟨s', hs', -, hfirst⟩ := h.mount.node
    obtain rfl := Option.mem_unique hi hs'
    exact ⟨[], .root, .mount, trivial, trivial, Option.mem_unique hfirst hc⟩
  obtain ⟨p, xs, o, mp, e, ht⟩ := h.node i s c hi hc him
  exact ⟨xs ++ [s.name], .entry e, .child ht.under hi ht.parent ht.name him, ht.entry_isDir htype,
    ⟨ht.live.1, ht.live.2.1⟩, Option.mem_unique ht.first hc⟩

/-- The vnode of a file is not the mount point, and stands for an entry. -/
lemma Tied.file (h : Tied v lim d (shapes nodes) m) (hnode : nodes[i]? = some node)
    (hpriv : node.priv = some pd) (htype : node.type = .reg) :
    i ≠ m ∧ ∃ p xs o mp e, TiedTo v lim d (shapes nodes) m node.shape p xs o mp e ∧
      pd.first = (entryAt d e).first := by
  have him : i ≠ m := by
    rintro rfl
    obtain ⟨s, hs, hdir, -⟩ := h.mount.node
    obtain rfl := Option.mem_unique (shapes_of_node hnode) hs
    exact VnodeType.noConfusion (htype.symm.trans hdir)
  have hfirst := Vnode.first_of_priv hpriv
  obtain ⟨p, xs, o, mp, e, ht⟩ := h.node i _ _ (shapes_of_node hnode) hfirst him
  exact ⟨him, p, xs, o, mp, e, ht, Option.mem_unique hfirst ht.first⟩

/-- A change of the volume keeps the ties, as long as lookups still find the same slots. -/
lemma TiedTo.evolve (h : TiedTo v lim d T m s p xs o mp e) (hev : Evolves v lim d d' grow X)
    (hfound : search (lookupVerdict (to83 s.name)) d' (dirSlots v mp) = some e) :
    TiedTo v lim d' T m s p xs o mp e := by
  have he := hev.entries e h.live.1
  have hdir := hev.dir_chain h.isDir h.owns
  have hfirst : o.first v d' = o.first v d ∧ (o.IsDir d' ↔ o.IsDir d) ∧ o.Exists v d' lim := by
    cases o with
    | root => exact ⟨rfl, Iff.rfl, trivial⟩
    | entry t =>
      obtain ⟨hlive, hdot⟩ := h.owns.1
      have ht := hev.entries t hlive
      exact ⟨ht.first_eq, ht.isDir, hev.live hlive, fun hd => hdot (ht.isDot.mp hd)⟩
  obtain ⟨ps, hps, htype, hpf⟩ := h.dir
  exact
    { h with
      dir := ⟨ps, hps, htype, by rw [hfirst.1]; exact hpf⟩
      isDir := hfirst.2.1.mpr h.isDir
      owns := ⟨hfirst.2.2, by rw [hfirst.1]; exact hdir⟩
      found := hfound
      first := by rw [he.first_eq]; exact h.first
      type := by rw [he.attr_eq]; exact h.type }

lemma Sized.evolve (h : Sized v lim d nodes) (ht : Tied v lim d (shapes nodes) m)
    (hev : Evolves v lim d d' grow X) : Sized v lim d' nodes := by
  intro i node pd hnode hpriv htype
  rcases h i node pd hnode hpriv htype with h0 | ⟨l, hl, hle⟩
  · exact .inl h0
  obtain ⟨-, p, xs, o, mp, e, hte, heq⟩ := ht.file hnode hpriv htype
  rw [heq] at hl ⊢
  refine .inr ⟨_, hev.chains (.entry e) l ⟨⟨hte.live.1, hte.live.2.1⟩, hl⟩, ?_⟩
  rw [capacity, length_append, add_mul]
  rw [capacity] at hle
  omega

end

/-! ## Lookups -/

/-- The vnode `fat32_lookup` makes for the entry in slot `e`. -/
def childOf (d : Disk) (dir : Nat) (name : List UInt8) (e : Loc) : Vnode :=
  { name := name, type := if (entryAt d e).attr &&& 0x10 = 0 then .reg else .dir, parent := some dir,
    priv := some ⟨(entryAt d e).first, (entryAt d e).size⟩, size := (entryAt d e).size }

/-- How a lookup in a directory with chain `mp` ends: a vnode for the slot found, or nothing for one of
four reasons. -/
inductive LookedUp (v : Vol) (fs : Fs) (dir : Nat) (mp : List Nat) (name : List UInt8) :
    Option Nat × Fs → Prop
  | made {e : Loc} {clock : Nat} (hlen : name.length ≤ 12)
      (he : search (lookupVerdict (to83 name)) fs.disk (dirSlots v mp) = some e) :
      LookedUp v fs dir mp name (some fs.nodes.length,
        { fs with
          clock := clock
          grants := fs.grants.tail
          nodes := fs.nodes ++ [childOf fs.disk dir name e] })
  | none {clock : Nat} {grants : List Bool}
      (hwhy : 12 < name.length ∨ search (lookupVerdict (to83 name)) fs.disk (dirSlots v mp) = none ∨
        fs.grants.headD true = false ∨ maxVnodes ≤ fs.nodes.length) :
      LookedUp v fs dir mp name (Option.none, { fs with clock := clock, grants := grants })

/-- A state that differs in new vnodes and in the answers of the device and of `kmalloc` only. -/
structure Cached (fs fs' : Fs) : Prop where
  disk : fs'.disk = fs.disk
  device : fs'.device = fs.device
  files : fs'.files = fs.files
  nodes : fs.nodes <+: fs'.nodes

lemma Cached.refl (fs : Fs) : Cached fs fs := ⟨rfl, rfl, rfl, prefix_rfl⟩

lemma Cached.trans {fs' fs'' : Fs} (h : Cached fs fs') (h' : Cached fs' fs'') : Cached fs fs'' :=
  ⟨h'.disk.trans h.disk, h'.device.trans h.device, h'.files.trans h.files, h.nodes.trans h'.nodes⟩

/-- **Rule for `find_child`**: it takes memory, and adds at most one vnode for a name that is not
cached. -/
lemma findChild_rule
    (hsame : ∀ clock grants, grants ⊆ fs.grants → P { fs with clock := clock, grants := grants })
    (hmade : ∀ clock grants (child : Vnode), grants ⊆ fs.grants →
      cachedChild fs.nodes dir name = none → node.priv.isSome = true → child.name = name →
      child.parent = some dir → child.priv.isSome = true →
      P { fs with clock := clock, grants := grants, nodes := fs.nodes ++ [child] }) :
    P (findChild v fs dir node name).2 := by
  have h : P fs := hsame fs.clock fs.grants fun _ hb => hb
  rw [findChild]
  cases hc : cachedChild fs.nodes dir name with
  | some i => exact h
  | none =>
    cases hp : node.priv with
    | none => exact h
    | some pd =>
      dsimp only
      rw [fat32Lookup]
      split
      · exact h
      have hwp : (dirLookup v pd.first (to83 name)).Wp (fun _ => True) fs.disk fun _ d =>
        d = fs.disk := (readOnly_dirLookup v pd.first (to83 name)).wp
      obtain ⟨r, d, k, hio, rfl⟩ := fs.io_spec hwp fun _ _ _ => trivial
      rw [hio]
      have htail : fs.grants.tail ⊆ fs.grants := tail_subset fs.grants
      cases r with
      | none => exact hsame k fs.grants fun _ hb => hb
      | some r =>
        dsimp only [Fs.kmalloc]
        cases fs.grants.headD true with
        | false => exact hsame k _ htail
        | true =>
          dsimp only
          split
          · exact hsame k _ htail
          · exact hmade k _ _ htail hc (by rw [hp]; rfl) rfl rfl rfl

lemma findChild_cached (v : Vol) (fs : Fs) (dir : Nat) (node : Vnode) (name : List UInt8) :
    Cached fs (findChild v fs dir node name).2 :=
  findChild_rule (fun _ _ _ => ⟨rfl, rfl, rfl, prefix_rfl⟩)
    fun _ _ _ _ _ _ _ _ _ => ⟨rfl, rfl, rfl, prefix_append _ _⟩

/-- **Rule for path resolution**: what the steps from directory to directory keep, it keeps. -/
lemma resolveFrom_rule (names : List (List UInt8))
    (hstep : ∀ fs cur node name, name ∈ names → fs.nodes[cur]? = some node → node.type = .dir → P fs →
      P (findChild v fs cur node name).2) (fs : Fs) (cur : Nat) (h : P fs) :
    P (resolveFrom v fs cur names).2 := by
  induction names generalizing fs cur with
  | nil => exact h
  | cons name names ih =>
    have hrest : ∀ fs cur, P fs → P (resolveFrom v fs cur names).2 :=
      ih fun fs cur node x hx => hstep fs cur node x (mem_cons_of_mem name hx)
    rw [resolveFrom]
    cases hnode : fs.nodes[cur]? with
    | none => exact h
    | some node =>
      dsimp only
      split
      · exact h
      rename_i htype
      split
      · exact hrest fs cur h
      split
      · exact hrest fs _ h
      have hs := hstep fs cur node name mem_cons_self hnode (Decidable.not_not.mp htype) h
      generalize findChild v fs cur node name = res at hs ⊢
      obtain ⟨r, fs'⟩ := res
      cases r with
      | none => exact hs
      | some i => exact hrest fs' i hs

/-- Resolving a path only adds vnodes. -/
lemma resolveFrom_cached (v : Vol) (fs : Fs) (cur : Nat) (names : List (List UInt8)) :
    Cached fs (resolveFrom v fs cur names).2 :=
  resolveFrom_rule names (fun fs' cur node name _ _ _ h => h.trans (findChild_cached v fs' cur node name))
    fs cur (.refl fs)

lemma vfsResolve_cached (v : Vol) (fs : Fs) (path : List UInt8) :
    Cached fs (vfsResolve v fs path).2 := resolveFrom_cached v fs 0 _

lemma tableReads_none (v : Vol) : TableReads v fun _ => False := fun _ _ h => h

section
variable (hv : v.Shaped) {lim m : Nat} (hlim : lim ≤ v.entries)

/-- A new vnode is tied to its entry. -/
lemma Sound.add (h : Sound v lim m fs) {s : Shape} {o : Owner}
    (hdir : shapes fs.nodes dir = some s) (htype : s.type = .dir)
    (hfirst : s.first = some (o.first v fs.disk)) (hisDir : o.IsDir fs.disk)
    (ho : Owns v fs.disk lim o mp) (hname : IsComponent name) (hlen : name.length ≤ 12) {e : Loc}
    (he : search (lookupVerdict (to83 name)) fs.disk (dirSlots v mp) = some e) (clock : Nat)
    (grants : List Bool) :
    Sound v lim m
      { fs with
        clock := clock
        grants := grants
        nodes := fs.nodes ++ [childOf fs.disk dir name e] } := by
  have hmono : ∀ i s, shapes fs.nodes i = some s →
      shapes (fs.nodes ++ [childOf fs.disk dir name e]) i = some s := fun i s => shapes_append
  obtain ⟨xs, -, hunder, -, -, -⟩ := h.tied.directory hdir hfirst htype
  refine ⟨h.wf, h.answers, ⟨⟨?_, ?_⟩, ?_⟩, ?_⟩
  · obtain ⟨sm, hsm, hrest⟩ := h.tied.mount.node
    exact ⟨sm, hmono _ _ hsm, hrest⟩
  · obtain ⟨a, b, sm, sa, sb, hm, hn, hp, ha, hna, hpa, hb, hpb⟩ := h.tied.mount.path
    exact ⟨a, b, sm, sa, sb, hmono _ _ hm, hn, hp, hmono _ _ ha, hna, hpa, hmono _ _ hb, hpb⟩
  · intro i si c hi hc him
    rcases shapes_append_inv hi with hold | ⟨rfl, rfl⟩
    · obtain ⟨p, ys, o', mp', e', ht⟩ := h.tied.node i si c hold hc him
      exact ⟨p, ys, o', mp', e', ht.mono hmono⟩
    · exact ⟨dir, xs, o, mp, e, rfl, hunder.mono hmono, ⟨s, hmono _ _ hdir, htype, hfirst⟩, hisDir, ho,
        he, rfl, rfl, hname, hlen⟩
  intro i node pd hnode hpriv hreg
  rcases lt_trichotomy i fs.nodes.length with hlt | heq | hgt
  · rw [getElem?_append_left hlt] at hnode
    exact h.sized i node pd hnode hpriv hreg
  · subst heq
    rw [getElem?_concat_length] at hnode
    cases hnode
    cases hpriv
    -- the size of the entry fits
    obtain ⟨hlive, hname'⟩ := live_of_lookup he
    refine h.wf.size e (live_of_owner hisDir ho hlive) (fun hdot => ?_) fun hd => ?_
    · apply to83_head name
      rw [← hname', head_name, hdot]
    · rw [childOf, if_neg hd] at hreg
      exact VnodeType.noConfusion hreg
  · rw [getElem?_eq_none (by rw [length_append, length_singleton]; omega)] at hnode
    cases hnode

include hv hlim

lemma fat32Lookup_cases (hans : ∀ k t, fs.device k t = .ok) (dir : Nat)
    (hmp : ChainAt v fs.disk lim pd.first mp) (name : List UInt8) :
    LookedUp v fs dir mp name (fat32Lookup v fs dir pd name) := by
  rw [fat32Lookup]
  split_ifs with hlen
  · exact .none (.inl (by assumption))
  obtain ⟨r, d, k, hio, hd, hr⟩ := fs.io_spec
    (wp_dirLookup hv (tableReads_none v) (hmp.mono hlim) (to83 name))
    fun i t hne => absurd (hans i t) hne
  subst hd
  rw [hio]
  replace hr := hr.resolve_left fun h => h.2.elim fun _ hf => hf
  cases hs : search (lookupVerdict (to83 name)) fs.disk (dirSlots v mp) with
  | none =>
    rw [hs] at hr
    subst hr
    exact .none (.inr (.inl hs))
  | some e =>
    rw [hs] at hr
    subst hr
    dsimp only [Option.map_some, Fs.kmalloc]
    cases hg : fs.grants.headD true with
    | false => exact .none (.inr (.inr (.inl hg)))
    | true =>
      dsimp only
      split
      · exact .none (.inr (.inr (.inr (by assumption))))
      · exact .made (Nat.not_lt.mp hlen) hs

omit hv hlim in
/-- The chain of the directory a vnode stands for. -/
lemma Sound.chain_of_dir (h : Sound v lim m fs) (hnode : fs.nodes[dir]? = some node)
    (htype : node.type = .dir) (hpriv : node.priv = some pd) :
    ∃ (o : Owner) (mp : List Nat), o.IsDir fs.disk ∧ Owns v fs.disk lim o mp ∧
      o.first v fs.disk = pd.first ∧ ChainAt v fs.disk lim pd.first mp := by
  obtain ⟨xs, o, -, hdir, hex, ho⟩ :=
    h.tied.directory (shapes_of_node hnode) (Vnode.first_of_priv hpriv) htype
  obtain ⟨mp, hmp⟩ := h.wf.dir_owns hdir hex
  exact ⟨o, mp, hdir, hmp, ho, ho ▸ hmp.2⟩

lemma findChild_sound (h : Sound v lim m fs) (hnode : fs.nodes[dir]? = some node)
    (htype : node.type = .dir) (hname : IsComponent name) :
    Sound v lim m (findChild v fs dir node name).2 := by
  rw [findChild]
  cases hc : cachedChild fs.nodes dir name with
  | some i => exact h
  | none =>
    cases hp : node.priv with
    | none => exact h
    | some pd =>
      obtain ⟨o, mp, hdir, hmp, ho, hchain⟩ := h.chain_of_dir hnode htype hp
      dsimp only
      have hcases := fat32Lookup_cases hv hlim h.answers dir hchain name
      generalize fat32Lookup v fs dir pd name = res at hcases ⊢
      cases hcases with
      | none => exact ⟨h.wf, h.answers, h.tied, h.sized⟩
      | made hlen he =>
        exact h.add (shapes_of_node hnode) htype (by rw [Vnode.first_of_priv hp, ho]) hdir hmp hname
          hlen he _ _

/-- **Resolving a path** keeps the invariant. -/
lemma resolveFrom_sound (names : List (List UInt8)) (hnames : ∀ x ∈ names, IsComponent x) (fs : Fs)
    (cur : Nat) (h : Sound v lim m fs) : Sound v lim m (resolveFrom v fs cur names).2 :=
  resolveFrom_rule names (fun _ _ _ name hmem hnode htype hs =>
    findChild_sound hv hlim hs hnode htype (hnames name hmem)) fs cur h

lemma vfsResolve_sound (h : Sound v lim m fs) {path : List UInt8} (h0 : 0 ∉ path) :
    Sound v lim m (vfsResolve v fs path).2 :=
  resolveFrom_sound hv hlim _ (fun _ hx => isComponent_of_mem h0 hx) fs 0 h

end
end FermiOs.Fat32
