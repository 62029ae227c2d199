import FermiOs.Fs.Fat32.Spellings

/-!
# Paths in memory and on the disk

`vfs_resolve` follows a path from vnode to vnode, `fat32_create` from directory to directory on the
disk. Below the mount point, with names of at most twelve bytes and enough memory, both get to the same
entry.
-/

namespace FermiOs.Fat32
open Library List
variable {cur : Nat} {e : Loc} {fs : Fs} {node : Vnode} {nodes : List Vnode}
  {path rel x : List UInt8}

/-! ## The names of a path -/

lemma components_nil : components [] = [] := rfl

lemma components_slash (xs ys : List UInt8) :
    components (xs ++ 47 :: ys) = components xs ++ components ys := by
  rw [components, components, components, splitOn, splitOn, splitOn,
    splitOnP_append_cons xs ys (by decide), filter_append]

lemma components_single (hne : x ≠ []) (hx : 47 ∉ x) : components x = [x] := by
  have hp : ∀ c ∈ x, (c == 47) = false := by
    intro c hc
    rw [beq_eq_false_iff_ne]
    rintro rfl
    exact hx hc
  rw [components, splitOn, splitOnP_eq_singleton hp, filter_cons_of_pos (by simpa using hne),
    filter_nil]

lemma components_dropWhile (xs : List UInt8) : components (xs.dropWhile (· = 47)) = components xs := by
  induction xs with
  | nil => rfl
  | cons c xs ih =>
    by_cases hc : c = 47
    · subst hc
      have hcons : components (47 :: xs) = components xs := by
        have h := components_slash [] xs
        rwa [nil_append, components_nil, nil_append] at h
      rw [dropWhile_cons_of_pos (by simp), ih, hcons]
    · rw [dropWhile_cons_of_neg (by simpa using hc)]

/-- A path is its directory part and its last name. -/
lemma components_splitLast (hne : (splitLast rel).2 ≠ []) :
    components rel = components ((splitLast rel).1.getD []) ++ [(splitLast rel).2] := by
  rw [← components_dropWhile rel]
  rw [splitLast] at hne ⊢
  generalize rel.dropWhile (· = 47) = p at hne ⊢
  have hslash : 47 ∉ (p.reverse.takeWhile (· ≠ 47)).reverse := by
    intro h
    have hmem := mem_takeWhile_imp (mem_reverse.mp h)
    simp at hmem
  have hp : p = (p.reverse.dropWhile (· ≠ 47)).reverse ++ (p.reverse.takeWhile (· ≠ 47)).reverse := by
    rw [← reverse_append, takeWhile_append_dropWhile, reverse_reverse]
  split
  · rename_i hmem
    -- what stands before the name ends with a slash
    cases hd : p.reverse.dropWhile (· ≠ 47) with
    | nil =>
      exfalso
      rw [hd, reverse_nil, nil_append] at hp
      rw [hp] at hmem
      exact hslash hmem
    | cons c cs =>
      have hc : c = 47 := by
        have h := head?_dropWhile_not (fun x : UInt8 => decide (x ≠ 47)) p.reverse
        rw [hd] at h
        simpa using h
      subst hc
      rw [hd, reverse_cons, append_assoc, singleton_append] at hp
      generalize (p.reverse.takeWhile (· ≠ 47)).reverse = name at hne hslash hp ⊢
      have htake : p.take (p.length - name.length - 1) = cs.reverse := by
        rw [hp, length_append, length_cons]
        have hlen : cs.reverse.length + (name.length + 1) - name.length - 1 = cs.reverse.length := by omega
        rw [hlen, take_left]
      rw [htake, Option.getD_some]
      conv_lhs => rw [hp]
      rw [components_slash, components_single hne hslash]
  rename_i hmem
  have hall : p.reverse.takeWhile (· ≠ 47) = p.reverse := by
    refine takeWhile_eq_self_iff.mpr fun c hc => ?_
    simpa using fun heq : c = 47 => hmem (heq ▸ mem_reverse.mp hc)
  rw [hall, reverse_reverse] at hne ⊢
  rw [Option.getD_none, components_nil, nil_append, components_single hne hmem]

/-- Behind the mount path stands a slash. -/
def UnderMount (path : List UInt8) : Prop := mountPath ++ [47] <+: path
deriving Decidable

/-- The path relative to the mount point has the names behind those of the mount point. -/
lemma UnderMount.components (h : UnderMount path) (hrel : fat32RelPath path = some rel) :
    components path = mountNames ++ components rel := by
  obtain ⟨rest, rfl⟩ := h
  have hrest : rel = (47 :: rest).dropWhile (· = 47) := by
    rw [fat32RelPath] at hrel
    split at hrel
    · dsimp only at hrel
      split at hrel
      · rw [append_assoc, drop_left] at hrel
        exact (Option.some.inj hrel).symm
      · cases hrel
    · cases hrel
  have hmount : Fat32.components mountPath = mountNames := by decide
  rw [hrest, components_dropWhile, append_assoc, singleton_append]
  have h := components_slash [] rest
  rw [nil_append, components_nil, nil_append] at h
  rw [components_slash, h, hmount]

/-! ## The cache -/

/-- Vnode `i` is the newest child of `dir` with this name. -/
def Newest (T : Nat → Option Shape) (dir : Nat) (name : List UInt8) (i : Nat) : Prop :=
  (∃ s, T i = some s ∧ s.parent = some dir ∧ s.name = name) ∧
    ∀ j s, i < j → T j = some s → ¬ (s.parent = some dir ∧ s.name = name)

lemma cachedChild_append (nodes : List Vnode) (x : Vnode) (dir : Nat) (name : List UInt8) :
    cachedChild (nodes ++ [x]) dir name =
      if x.parent = some dir ∧ x.name = name then some nodes.length else cachedChild nodes dir name := by
  rw [cachedChild, length_append, length_singleton, range_succ, reverse_append,
    reverse_singleton, singleton_append, find?_cons]
  have hlast : (nodes ++ [x])[nodes.length]? = some x := getElem?_concat_length
  simp only [hlast]
  by_cases hx : x.parent = some dir ∧ x.name = name
  · simp [hx]
  simp only [hx, decide_false]
  refine find?_congr fun i hi => ?_
  have hlt : i < nodes.length := mem_range.mp (mem_reverse.mp hi)
  rw [getElem?_append_left hlt]
  cases nodes[i]? with
  | none => exact (decide_eq_false id).symm
  | some n => rfl

variable {dir i : Nat} {name : List UInt8}

lemma cachedChild_of_newest (h : Newest (shapes nodes) dir name i) :
    cachedChild nodes dir name = some i := by
  induction nodes using List.reverseRecOn with
  | nil =>
    obtain ⟨⟨s, hs, -⟩, -⟩ := h
    cases hs
  | append_singleton nodes x ih =>
    rw [cachedChild_append]
    obtain ⟨⟨s, hs, hp, hn⟩, hlater⟩ := h
    have hlast : shapes (nodes ++ [x]) nodes.length = some x.shape :=
      shapes_of_node getElem?_concat_length
    rcases shapes_append_inv hs with hold | ⟨rfl, rfl⟩
    · have hlt : i < nodes.length := by
        by_contra hge
        rw [shapes, getElem?_eq_none (by omega)] at hold
        cases hold
      have hno : ¬ (x.parent = some dir ∧ x.name = name) := hlater nodes.length x.shape hlt hlast
      rw [if_neg hno]
      exact ih ⟨⟨s, hold, hp, hn⟩, fun j s' hj hs' => hlater j s' hj (shapes_append hs')⟩
    · exact if_pos ⟨hp, hn⟩

lemma cachedChild_some (h : cachedChild nodes dir name = some i) :
    ∃ node, nodes[i]? = some node ∧ node.parent = some dir ∧ node.name = name := by
  have hp := find?_some h
  cases hn : nodes[i]? with
  | none =>
    rw [hn] at hp
    exact absurd hp (by simp)
  | some node =>
    rw [hn] at hp
    exact ⟨node, rfl, of_decide_eq_true hp⟩

/-- The vnodes on the way to the mount point `m` belong to no file system, and what lies below a vnode
of the file system belongs to it. -/
structure Booted (m : Nat) (T : Nat → Option Shape) : Prop where
  root : ∃ s, T 0 = some s ∧ s.type = .dir ∧ s.first = none
  mnt : ∃ a s, Newest T 0 [109, 110, 116] a ∧ T a = some s ∧ s.type = .dir ∧ s.first = none ∧
    Newest T a [102, 97, 116, 51, 50] m
  below : ∀ i s p ps, T i = some s → s.parent = some p → T p = some ps → ps.first.isSome = true →
    s.first.isSome = true
  inside : ∀ i s p, T i = some s → s.parent = some p → (T p).isSome = true

section
variable {v : Vol} {m : Nat}

lemma Newest.append (h : Newest (shapes nodes) dir name i) {x : Vnode} (hx : x.parent ≠ some dir) :
    Newest (shapes (nodes ++ [x])) dir name i := by
  obtain ⟨⟨s, hs, hp⟩, hlater⟩ := h
  refine ⟨⟨s, shapes_append hs, hp⟩, fun j s' hj hs' => ?_⟩
  rcases shapes_append_inv hs' with hold | ⟨-, rfl⟩
  · exact hlater j s' hj hold
  · exact fun hc => hx hc.1

lemma Booted.append (h : Booted m (shapes nodes)) {s : Shape} (hdir : shapes nodes dir = some s)
    (hfirst : s.first.isSome = true) {x : Vnode} (hp : x.parent = some dir)
    (hpriv : x.priv.isSome = true) : Booted m (shapes (nodes ++ [x])) := by
  have hne : ∀ q t, shapes nodes q = some t → t.first = none → x.parent ≠ some q := by
    intro q t hq ht hxq
    obtain rfl := Option.mem_unique hp hxq
    obtain rfl := Option.mem_unique hdir hq
    rw [ht] at hfirst
    cases hfirst
  refine ⟨?_, ?_, ?_, ?_⟩
  · obtain ⟨t, ht, hrest⟩ := h.root
    exact ⟨t, shapes_append ht, hrest⟩
  · obtain ⟨r, hr, -, hrf⟩ := h.root
    obtain ⟨a, t, ha, ht, hd, hf, hm⟩ := h.mnt
    exact ⟨a, t, ha.append (hne 0 r hr hrf), shapes_append ht, hd, hf, hm.append (hne a t ht hf)⟩
  · intro i t p ps hi hpar hps hsome
    rcases shapes_append_inv hi with hold | ⟨-, rfl⟩
    · rcases shapes_append_inv hps with holdp | ⟨rfl, -⟩
      · exact h.below i t p ps hold hpar holdp hsome
      · -- no vnode had a parent beyond the pool
        have hin := h.inside i t _ hold hpar
        rw [shapes, getElem?_eq_none le_rfl] at hin
        cases hin
    · rw [Vnode.shape, Option.isSome_map]
      exact hpriv
  intro i t p hi hpar
  rcases shapes_append_inv hi with hold | ⟨-, rfl⟩
  · obtain ⟨ps, hps⟩ := Option.isSome_iff_exists.mp (h.inside i t p hold hpar)
    rw [shapes_append hps]
    rfl
  · obtain rfl : dir = p := Option.mem_unique hp hpar
    rw [shapes_append hdir]
    rfl

lemma Booted.findChild (h : Booted m (shapes fs.nodes)) (hnode : fs.nodes[dir]? = some node)
    (name : List UInt8) :
    Booted m (shapes (findChild v fs dir node name).2.nodes) := by
  refine findChild_rule (P := fun fs' => Booted m (shapes fs'.nodes)) (fun _ _ _ => h)
    fun _ _ child _ _ hp _ hcp hpriv => h.append (shapes_of_node hnode) ?_ hcp hpriv
  rw [Vnode.shape, Option.isSome_map]
  exact hp

/-- One step of a path, from the vnode of a directory. -/
lemma resolveFrom_step {fs' : Fs} {rest : List (List UInt8)} (hnode : fs.nodes[cur]? = some node)
    (hdir : node.type = .dir) (hdot : name ≠ [46]) (hdots : name ≠ [46, 46])
    (hfind : findChild v fs cur node name = (some i, fs')) :
    resolveFrom v fs cur (name :: rest) = resolveFrom v fs' i rest := by
  rw [resolveFrom, hnode]
  dsimp only
  rw [if_neg (by rw [hdir]; simp), if_neg hdot, if_neg hdots, hfind]

variable (h : Booted m (shapes fs.nodes))
include h

lemma Booted.vfsResolve (path : List UInt8) : Booted m (shapes (vfsResolve v fs path).2.nodes) :=
  resolveFrom_rule (P := fun fs => Booted m (shapes fs.nodes)) _
    (fun _ _ _ name _ hnode _ h => h.findChild hnode name) fs 0 h

/-- The mount point is found under its path. -/
lemma Booted.resolve_mount (names : List (List UInt8)) :
    resolveFrom v fs 0 (mountNames ++ names) = resolveFrom v fs m names := by
  obtain ⟨r, hr, hrd, -⟩ := h.root
  obtain ⟨a, s, ha, hs, hd, -, hm⟩ := h.mnt
  obtain ⟨n, hn, rfl⟩ := shapes_eq_some.mp hr
  obtain ⟨na, hna, rfl⟩ := shapes_eq_some.mp hs
  rw [mountNames, cons_append, cons_append, nil_append,
    resolveFrom_step hn hrd (by decide) (by decide) (by rw [Fat32.findChild, cachedChild_of_newest ha]),
    resolveFrom_step hna hd (by decide) (by decide) (by rw [Fat32.findChild, cachedChild_of_newest hm])]

end

/-! ## Resolution finds what is on the disk -/

/-- Memory for `n` more vnodes. -/
structure Ample (fs : Fs) (n : Nat) : Prop where
  grants : ∀ b ∈ fs.grants, b = true
  pool : fs.nodes.length + n ≤ maxVnodes

/-- A name that is looked up as it stands: at most twelve bytes, neither `.` nor `..`. -/
structure IsPlain (x : List UInt8) : Prop where
  component : IsComponent x
  short : x.length ≤ 12
  dot : x ≠ [46]
  dots : x ≠ [46, 46]

section
variable {v : Vol} (hv : v.Shaped) {lim m : Nat} (hlim : lim ≤ v.entries)
include hv hlim

/-- One step finds the entry of the name. -/
lemma findChild_finds (h : Sound v lim m fs) (hb : Booted m (shapes fs.nodes)) {pd : Priv}
    (hnode : fs.nodes[cur]? = some node) (htype : node.type = .dir) (hpriv : node.priv = some pd)
    (hname : IsPlain name) (he : lookupSlot v fs.disk pd.first name = some e) {n : Nat}
    (hmem : Ample fs (n + 1)) :
    ∃ i fs' child, findChild v fs cur node name = (some i, fs') ∧ fs'.nodes[i]? = some child ∧
      child.priv.map Priv.first = some (entryAt fs.disk e).first ∧
      child.type = (if (entryAt fs.disk e).attr &&& 0x10 = 0 then .reg else .dir) ∧
      entryOf v fs' i = some e ∧ Ample fs' n := by
  have hshape := shapes_of_node hnode
  have hfirst := Vnode.first_of_priv hpriv
  obtain ⟨o, mp, -, -, -, hchain⟩ := h.chain_of_dir hnode htype hpriv
  have hslot := he
  rw [lookupSlot, chainFrom_eq hv hlim hchain] at hslot
  rw [findChild]
  cases hc : cachedChild fs.nodes cur name with
  | some i =>
    obtain ⟨child, hchild, hcp, hcn⟩ := cachedChild_some hc
    have hcs := shapes_of_node hchild
    obtain ⟨c, hcf⟩ :=
      Option.isSome_iff_exists.mp (hb.below i _ cur _ hcs hcp hshape (by rw [hfirst]; rfl))
    obtain ⟨cpd, hcpriv, -⟩ := Vnode.first_eq_some.mp hcf
    -- the mount point lies in a directory of no file system
    have him : i ≠ m := by
      rintro rfl
      obtain ⟨a, s, -, hs, -, hsf, ⟨t, ht, hta, -⟩, -⟩ := hb.mnt
      obtain rfl := Option.mem_unique hcs ht
      obtain rfl := Option.mem_unique hcp hta
      obtain rfl := Option.mem_unique hshape hs
      rw [hfirst] at hsf
      cases hsf
    obtain ⟨p, ys, o', mp', e', ht⟩ := h.tied.node i _ c hcs hcf him
    obtain rfl : p = cur := Option.mem_unique ht.parent hcp
    obtain rfl := hchain.unique hv (ht.chain hshape hfirst) hlim
    have hfound := ht.found
    rw [show child.shape.name = name from hcn] at hfound
    obtain rfl := Option.mem_unique hslot hfound
    refine ⟨i, fs, child, rfl, hchild, ht.first, ht.type, ?_, hmem.grants, ?_⟩
    · simp [entryOf, hchild, hcpriv, hcp, hnode, hpriv, hcn, he]
    · have := hmem.pool
      omega
  | none =>
    rw [hpriv]
    dsimp only
    have hcases := fat32Lookup_cases hv hlim h.answers cur hchain name
    generalize fat32Lookup v fs cur pd name = res at hcases ⊢
    cases hcases with
    | none hwhy =>
      exfalso
      rcases hwhy with hlong | hnone | hgrant | hpool
      · have := hname.short
        omega
      · rw [hslot] at hnone
        cases hnone
      · cases hg : fs.grants with
        | nil =>
          rw [hg] at hgrant
          cases hgrant
        | cons b bs =>
          rw [hg] at hgrant
          have hb := hmem.grants b (by rw [hg]; exact mem_cons_self)
          rw [headD_cons, hb] at hgrant
          cases hgrant
      · have := hmem.pool
        omega
    | @made e' clock _ he' =>
      obtain rfl := Option.mem_unique hslot he'
      have hlt := (List.getElem?_eq_some_iff.mp hnode).1
      refine ⟨fs.nodes.length, _, childOf fs.disk cur name e, rfl, getElem?_concat_length, rfl, rfl,
        ?_, fun b hb => hmem.grants b (mem_of_mem_tail hb), ?_⟩
      · have hcur : (fs.nodes ++ [childOf fs.disk cur name e])[cur]? = some node := by
          rw [getElem?_append_left hlt, hnode]
        rw [entryOf]
        rw [getElem?_concat_length]
        show ((fs.nodes ++ [childOf fs.disk cur name e])[cur]?.bind _) = some e
        rw [hcur, Option.bind_some, hpriv]
        exact he
      · have := hmem.pool
        rw [length_append, length_singleton]
        omega

/-- **A path that leads to an entry on the disk** leads to a vnode for it. -/
lemma resolveFrom_finds (x : List UInt8) (hx : IsPlain x) (xs : List (List UInt8))
    (hxs : ∀ y ∈ xs, IsPlain y) : ∀ (fs : Fs) (cur : Nat) (node : Vnode) (pd : Priv),
    Sound v lim m fs → Booted m (shapes fs.nodes) → fs.nodes[cur]? = some node → node.type = .dir →
    node.priv = some pd → ∀ (dir : Nat) (e : Loc), walkNames v fs.disk pd.first xs = some dir →
    lookupSlot v fs.disk dir x = some e → Ample fs (xs.length + 1) →
    ∃ i, (resolveFrom v fs cur (xs ++ [x])).1 = some i ∧
      entryOf v (resolveFrom v fs cur (xs ++ [x])).2 i = some e := by
  induction xs with
  | nil =>
    intro fs cur node pd h hb hnode htype hpriv dir e hwalk he hmem
    obtain rfl := Option.some.inj hwalk
    obtain ⟨i, fs', child, hfind, -, -, -, hentry, -⟩ :=
      findChild_finds hv hlim h hb hnode htype hpriv hx he hmem
    rw [nil_append, resolveFrom_step hnode htype hx.dot hx.dots hfind]
    exact ⟨i, rfl, hentry⟩
  | cons y ys ih =>
    intro fs cur node pd h hb hnode htype hpriv dir e hwalk he hmem
    have hy := hxs y mem_cons_self
    obtain ⟨s, hs, hattr, hwalk⟩ := walkNames_cons hwalk
    rw [take_of_length_le hy.short] at hs
    obtain ⟨i, fs', child, hfind, hchild, hcf, hct, -, hmem'⟩ :=
      findChild_finds hv hlim h hb hnode htype hpriv hy hs hmem
    have hs' : Sound v lim m fs' := by
      have hsound := findChild_sound hv hlim h hnode htype hy.component
      rwa [hfind] at hsound
    have hb' : Booted m (shapes fs'.nodes) := by
      have hboot := hb.findChild (v := v) hnode y
      rwa [hfind] at hboot
    have hdisk : fs'.disk = fs.disk := by
      have hcached := findChild_cached v fs cur node y
      rw [hfind] at hcached
      exact hcached.disk
    rw [if_neg hattr] at hct
    obtain ⟨cpd, hcp, hcf⟩ := Option.map_eq_some_iff.mp hcf
    rw [cons_append, resolveFrom_step hnode htype hy.dot hy.dots hfind]
    refine ih (fun z hz => hxs z (mem_cons_of_mem y hz)) fs' i child cpd hs' hb' hchild
      hct hcp dir e ?_ ?_ hmem'
    · rw [hdisk, hcf]
      exact hwalk
    · rw [hdisk]
      exact he

/-- **A path below the mount point** leads to a vnode for the entry it leads to on the disk. -/
lemma vfsResolve_finds (h : Sound v lim m fs) (hb : Booted m (shapes fs.nodes))
    {xs : List (List UInt8)} (hpath : components path = mountNames ++ (xs ++ [x])) (hx : IsPlain x)
    (hxs : ∀ y ∈ xs, IsPlain y) (hwalk : walkNames v fs.disk v.root xs = some dir)
    (he : lookupSlot v fs.disk dir x = some e) (hmem : Ample fs (xs.length + 1)) :
    ∃ i, (vfsResolve v fs path).1 = some i ∧ entryOf v (vfsResolve v fs path).2 i = some e := by
  obtain ⟨s, hs, hdir, hfirst⟩ := h.tied.mount.node
  obtain ⟨node, hn, rfl⟩ := shapes_eq_some.mp hs
  obtain ⟨pd, hp, hroot⟩ := Vnode.first_eq_some.mp hfirst
  rw [vfsResolve, hpath, hb.resolve_mount]
  exact resolveFrom_finds hv hlim x hx xs hxs fs m node pd h hb hn hdir hp dir e
    (by rw [hroot]; exact hwalk) he hmem

end
end FermiOs.Fat32
