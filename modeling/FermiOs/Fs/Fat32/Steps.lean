import FermiOs.Fs.Fat32.Sound

/-!
# Calls keep the invariant

Creating an entry under a new name, rewriting a size that fits and growing a chain within the volume
keep the file system sound. The calls of `vfs.c` are made of these.
-/

namespace FermiOs.Fat32
open Library List
variable {c : UInt8} {d d' : Disk} {lim : Nat} {node : Vnode} {o : Owner} {pd : Priv}
  {rel : List UInt8} {t : Loc} {v : Vol}

/-! ## Lookups in a changed directory -/

section
variable {slots : List Loc} {e : Loc} {name : List UInt8}

lemma SameEntry.lookupVerdict {x x' : DirEntry} (h : SameEntry x x') (name : List UInt8) :
    lookupVerdict name x' = lookupVerdict name x := by
  rw [Fat32.lookupVerdict, Fat32.lookupVerdict, h 0 (by omega), h.attr_eq, h.name_eq]

variable (h : search (lookupVerdict name) d slots = some e)
include h

/-- An entry of another name in an unused slot does not change what a lookup finds. -/
lemma search_put (hfree : entryAt d t 0 = 0 ∨ entryAt d t 0 = 0xE5)
    (hsame : ∀ s ∈ slots, s ≠ t → SameEntry (entryAt d s) (entryAt d' s))
    (h0 : entryAt d' t 0 ≠ 0) (hname : (entryAt d' t).name ≠ name) :
    search (lookupVerdict name) d' slots = some e := by
  obtain ⟨before, after, hsplit, hskip, hhit⟩ := search_eq_some.mp h
  obtain ⟨hne, hlisted, -⟩ := lookupVerdict_hit.mp hhit
  have het : e ≠ t := by
    rintro rfl
    exact hfree.elim hne hlisted.1
  refine search_eq_some.mpr ⟨before, after, hsplit, fun s hs => ?_, ?_⟩
  · by_cases heq : s = t
    · subst heq
      cases hv : lookupVerdict name (entryAt d' s) with
      | skip => rfl
      | stop => exact absurd (lookupVerdict_stop.mp hv) h0
      | hit => exact absurd (lookupVerdict_hit.mp hv).2.2 hname
    · rw [(hsame s (hsplit ▸ mem_append_left _ hs) heq).lookupVerdict]
      exact hskip s hs
  · rw [(hsame e (mem_of_search h) het).lookupVerdict]
    exact hhit

/-- What `fat32_truncate_path` finds is the entry a lookup finds, or a volume label. -/
lemma sizeSlot_eq
    (ht : search (sizeVerdict name) d slots = some t) : t = e ∨ ¬ (entryAt d t).Listed := by
  induction slots with
  | nil => cases h
  | cons s slots ih =>
    rw [search] at h ht
    cases hs : sizeVerdict name (entryAt d s) with
    | stop =>
      rw [hs] at ht
      cases ht
    | hit =>
      rw [hs] at ht
      obtain rfl : s = t := Option.some.inj ht
      by_cases hl : (entryAt d s).Listed
      · left
        have hhit : lookupVerdict name (entryAt d s) = .hit := by
          rw [sizeVerdict] at hs
          split at hs
          · exact Verdict.noConfusion hs
          rename_i hn
          split at hs
          · rename_i hname
            exact lookupVerdict_hit.mpr ⟨fun h0 => hn (.inl h0), hl, hname⟩
          · exact Verdict.noConfusion hs
        rw [hhit] at h
        cases h
        rfl
      · exact .inr hl
    | skip =>
      rw [hs] at ht
      cases hv : lookupVerdict name (entryAt d s) with
      | hit => cases hs.symm.trans (sizeVerdict_of_lookup hv)
      | stop =>
        rw [hv] at h
        cases h
      | skip =>
        rw [hv] at h
        exact ih h ht

end

variable {data path : List UInt8} {first i n offset : Nat} {l new r : List Nat} {res : Ret}

section
variable (hv : v.Shaped) {m : Nat} (hlim : lim ≤ v.entries) {T : Nat → Option Shape}

/-- What lookups find in the directories of `d` they find in those of `d'`. -/
def KeepsLookups (v : Vol) (lim : Nat) (d d' : Disk) : Prop :=
  ∀ (o : Owner) mp name e, o.IsDir d → Owns v d lim o mp →
    search (lookupVerdict name) d (dirSlots v mp) = some e →
    search (lookupVerdict name) d' (dirSlots v mp) = some e

lemma keepsLookups_putSize (d : Disk) (t : Loc) (n : Nat) : KeepsLookups v lim d (putSize d t n) := by
  intro o mp name e _ _ hs
  rw [← hs]
  exact search_congr fun s _ => (sameEntry_putSize d t n s).lookupVerdict name

lemma Tied.evolve (h : Tied v lim d T m) {grow : Owner → List Nat} {X : Loc → Prop}
    (hev : Evolves v lim d d' grow X) (hfound : KeepsLookups v lim d d') : Tied v lim d' T m := by
  refine ⟨h.mount, fun i s c hi hc him => ?_⟩
  obtain ⟨p, xs, o, mp, e, ht⟩ := h.node i s c hi hc him
  exact ⟨p, xs, o, mp, e, ht.evolve hev (hfound o mp _ e ht.isDir ht.owns ht.found)⟩

include hv hlim

/-- A slot lies in one directory only. -/
lemma Wf.slot_owner (hw : Wf v d lim) {o' : Owner} {l' : List Nat} (ho : Owns v d lim o l)
    (ho' : Owns v d lim o' l') {s : Loc} (hs : s ∈ dirSlots v l) (hs' : s ∈ dirSlots v l') :
    o = o' := by
  obtain ⟨⟨c, hc, hin⟩, -⟩ := mem_dirSlots.mp hs
  obtain ⟨⟨c', hc', hin'⟩, -⟩ := mem_dirSlots.mp hs'
  have hr := (ho.2.mono hlim).range c hc
  have hr' := (ho'.2.mono hlim).range c' hc'
  obtain rfl := hin.inj hv hin' hr.1 hr.2 hr'.1 hr'.2
  by_contra hne
  exact hw.apart o o' l l' ho ho' hne c hc hc'

end

/-! ## Creating -/

/-- No entry of the directory this path names has its 8.3 name, and the end mark stays one when the
first unused slot is taken. -/
def NewName (v : Vol) (d : Disk) (rel : List UInt8) : Prop :=
  ∀ dir ∈ walkNames v d v.root (components ((splitLast rel).1.getD [])),
    lookupSlot v d dir ((splitLast rel).2.take 12) = none ∧
    ∀ t ∈ search freeVerdict d (dirSlots v (chainFrom v d v.entries dir)),
      EndsClean d (dirSlots v (chainFrom v d v.entries dir)) t

instance (d : Disk) (slots : List Loc) (t : Loc) : Decidable (EndsClean d slots t) :=
  decidable_of_iff (entryAt d t 0 = 0 → ∀ s ∈ slots, [t, s] <:+: slots → entryAt d s 0 = 0) <| by
    refine imp_congr_right fun _ => ⟨fun h before after s heq => ?_, ?_⟩
    · exact h s (by simp [heq]) ⟨before, after, by simp [heq]⟩
    rintro h s - ⟨before, after, heq⟩
    exact h before after s (by simp [← heq])

instance (v : Vol) (d : Disk) (rel : List UInt8) : Decidable (NewName v d rel) :=
  inferInstanceAs (Decidable
    (∀ dir ∈ walkNames v d v.root (components ((splitLast rel).1.getD [])),
      _ ∧ ∀ t ∈ search freeVerdict d (dirSlots v (chainFrom v d v.entries dir)), _))

lemma to83_head_nul {x : List UInt8} (h0 : 0 ∉ x) : (to83 x).head? ≠ some 0 :=
  to83_head_ne (by decide) (by decide) fun h => h0 ((takeWhile_sublist _).subset h)

/-- The bytes of a new entry's name come from the path. -/
lemma mem_of_mem_splitLast (h : c ∈ (splitLast path).2) : c ∈ path := by
  have h1 := mem_reverse.mp ((takeWhile_sublist _).subset (mem_reverse.mp h))
  exact (dropWhile_sublist _).subset h1

lemma mem_of_mem_relPath (h : fat32RelPath path = some rel) (hc : c ∈ rel) : c ∈ path := by
  rw [fat32RelPath] at h
  split at h
  · dsimp only at h
    split at h
    · cases h
      exact mem_of_mem_drop ((dropWhile_sublist _).subset hc)
    · cases h
  · cases h

lemma FirstFree.le {g c : Nat} (h : FirstFree v d g) (h2 : 2 ≤ c) (hc : fatVal v d c = 0) : g ≤ c := by
  by_contra hlt
  exact h.first c h2 (by omega) hc

section
variable (hv : v.Shaped) {m : Nat} (hlim : lim ≤ v.entries) {fs : Fs}
include hv hlim

/-- The slot `s` of the directory at `dir` is the first unused one of `d` and holds the entry of a new
file in `d'`, the only one that changed. -/
structure NewSlot (v : Vol) (d d' : Disk) (dir : Nat) (name : List UInt8) (s : Loc) : Prop where
  first : search freeVerdict d (dirSlots v (chainFrom v d v.entries dir)) = some s
  name : (entryAt d' s).name = to83 name
  listed : (entryAt d' s).Listed
  used : entryAt d' s 0 ≠ 0
  other : ∀ t ∈ dirSlots v (chainFrom v d v.entries dir), t ≠ s →
    SameEntry (entryAt d t) (entryAt d' t)

/-- **Creating a file** under a new name: the volume stays well formed, lookups find what they found,
and the only entry that may be new is that of the file. -/
lemma Created.change {ok : Bool} (hw : Wf v d lim)
    (hc : Created v (fun _ => False) lim d rel ok d') (h0 : 0 ∉ rel)
    (hroom : lim = v.entries ∨ ∃ c, 2 ≤ c ∧ c < lim ∧ fatVal v d c = 0) (hnew : NewName v d rel) :
    ∃ grow X, Evolves v lim d d' grow X ∧ Wf v d' lim ∧ KeepsLookups v lim d d' ∧
      ∀ s, X s → ∃ dir, walkNames v d v.root (components ((splitLast rel).1.getD [])) = some dir ∧
        NewSlot v d d' dir ((splitLast rel).2.take 12) s := by
  cases hc with
  | none => exact ⟨_, _, .refl v lim d, hw, fun _ _ _ _ _ _ hs => hs, fun _ hx => hx.elim⟩
  | lost hm _ =>
    refine ⟨_, _, evolves_mark hv hlim hm, wf_mark hv hlim hm hw, ?_, fun _ hx => hx.elim⟩
    intro o mp name e _ ho hs
    rw [← hs]
    refine search_congr fun s hs => ?_
    rw [entryAt, entryAt, hm.data s.1 (slot_data hv hlim ho.2 hs)]
  | @added _ d1 g o mp t hm hdir ho hwalk ht =>
    obtain ⟨hno, hends⟩ := hnew _ hwalk
    rw [lookupSlot, chainFrom_eq hv hlim ho.2] at hno
    rw [chainFrom_eq hv hlim ho.2] at hends
    have hne0 : newEntry ((splitLast rel).2.take 12) g 0 ≠ 0 := by
      intro heq
      refine to83_head_nul (x := (splitLast rel).2.take 12) (fun hmem => h0 ?_) ?_
      · exact mem_of_mem_splitLast (mem_of_mem_take hmem)
      · rw [newEntry_zero _ g, heq]
    have hg : g < lim := by
      rcases hroom with heq | ⟨c, h2, hlt, hfree⟩
      · rw [heq]
        exact hm.first.upper
      · exact lt_of_le_of_lt (hm.first.le h2 hfree) hlt
    have hev := evolves_create hv hlim hw hm ho ht (hends t ht) hne0
    have hent : SameEntry (newEntry ((splitLast rel).2.take 12) g)
        (entryAt (putSlot d1 t (newEntry ((splitLast rel).2.take 12) g)) t) :=
      fun k hk => by rw [entryAt_putSlot (by omega), if_pos rfl]
    have hname : (entryAt (putSlot d1 t (newEntry ((splitLast rel).2.take 12) g)) t).name =
        to83 ((splitLast rel).2.take 12) := by rw [hent.name_eq, newEntry_name]
    have hused : entryAt (putSlot d1 t (newEntry ((splitLast rel).2.take 12) g)) t 0 ≠ 0 := by
      rw [hent 0 (by omega)]
      exact hne0
    have hsame : ∀ {o' : Owner} {mp' : List Nat}, Owns v d lim o' mp' → ∀ s ∈ dirSlots v mp', s ≠ t →
        SameEntry (entryAt d s)
          (entryAt (putSlot d1 t (newEntry ((splitLast rel).2.take 12) g)) s) := by
      intro o' mp' ho' s hs hne k hk
      rw [entryAt_putSlot (by omega), if_neg hne, entryAt, entryAt,
        hm.data s.1 (slot_data hv hlim ho'.2 hs)]
    refine ⟨_, _, hev, wf_create hv hlim hw hm ho ht (hends t ht) hne0 hg, ?_, ?_⟩
    · intro o' mp' name e _ ho' hs
      by_cases hmem : t ∈ dirSlots v mp'
      · obtain rfl := hw.slot_owner hv hlim ho' ho hmem (mem_of_search ht)
        obtain rfl := ho'.2.unique hv ho.2 hlim
        obtain ⟨-, -, -, -, hhit⟩ := search_eq_some.mp ht
        refine search_put hs (freeVerdict_hit.mp hhit) (hsame ho') hused ?_
        rw [hname]
        rintro rfl
        rw [hno] at hs
        cases hs
      · rw [← hs]
        refine search_congr fun s hs => (hsame ho' s hs ?_).lookupVerdict name
        rintro rfl
        exact hmem hs
    rintro s ⟨rfl, hlisted⟩
    refine ⟨_, hwalk, ?_⟩
    have hchain : chainFrom v d v.entries (o.first v d) = mp := chainFrom_eq hv hlim ho.2
    exact ⟨by rw [hchain]; exact ht, hname, hent.listed.mpr hlisted, hused,
      by rw [hchain]; exact hsame ho⟩

lemma fat32CreateFile_sound (h : Sound v lim m fs) (h0 : 0 ∉ path)
    (hroom : lim = v.entries ∨ ∃ c, 2 ≤ c ∧ c < lim ∧ fatVal v fs.disk c = 0)
    (hnew : ∀ rel ∈ fat32RelPath path, NewName v fs.disk rel) :
    Sound v lim m (fat32CreateFile v fs path).2 := by
  rw [fat32CreateFile]
  cases hrel : fat32RelPath path with
  | none => exact h
  | some rel =>
    obtain ⟨r, d, k, hio, hc⟩ := fs.io_spec (wp_fat32Create hv hlim (tableReads_none v) h.wf rel)
      fun i t hne => absurd (h.answers i t) hne
    obtain ⟨grow, X, hev, hw, hfound, -⟩ := hc.change hv hlim h.wf
      (fun hmem => h0 (mem_of_mem_relPath hrel hmem)) hroom (hnew rel hrel)
    dsimp only
    rw [hio]
    exact ⟨hw, h.answers, h.tied.evolve hev hfound, h.sized.evolve h.tied hev⟩

end

/-! ## Sizes -/

section
variable (hv : v.Shaped) {m : Nat} (hlim : lim ≤ v.entries) {fs : Fs}

lemma Sized.setSize {nodes : List Vnode} (h : Sized v lim d nodes)
    (hfit : ∀ node pd, nodes[i]? = some node → node.priv = some pd → node.type = .reg →
      (pd.first = 0 ∧ n = 0) ∨ ∃ l, ChainAt v d lim pd.first l ∧ n ≤ capacity v l) :
    Sized v lim d (setSize nodes i n) := by
  intro j node pd hnode hpriv htype
  by_cases hij : j = i
  · subst hij
    cases hold : nodes[j]? with
    | none =>
      rw [Fat32.setSize, getElem?_modify_eq, hold] at hnode
      cases hnode
    | some node0 =>
      rw [getElem?_setSize hold] at hnode
      cases hnode
      cases hp : node0.priv with
      | none =>
        rw [hp] at hpriv
        cases hpriv
      | some pd0 =>
        rw [hp] at hpriv
        cases hpriv
        exact hfit node0 pd0 hold hp htype
  · rw [Fat32.setSize, getElem?_modify_ne _ _ (Ne.symm hij)] at hnode
    exact h j node pd hnode hpriv htype

/-- The size of a vnode may be set to what fits its chain. -/
lemma Sound.setSize (h : Sound v lim m fs)
    (hfit : ∀ node pd, fs.nodes[i]? = some node → node.priv = some pd → node.type = .reg →
      (pd.first = 0 ∧ n = 0) ∨ ∃ l, ChainAt v fs.disk lim pd.first l ∧ n ≤ capacity v l) :
    Sound v lim m { fs with nodes := setSize fs.nodes i n } where
  wf := h.wf
  answers := h.answers
  tied := by
    dsimp only
    rw [shapes_setSize]
    exact h.tied
  sized := h.sized.setSize hfit

include hv hlim

/-- The size of an entry may be set to what fits its chain. -/
lemma Sound.putSize (h : Sound v lim m fs) (ht : v.dataStart ≤ t.1)
    (hfit : ∀ l, FileOf v fs.disk lim t l → u32 n ≤ capacity v l)
    (hzero : Live v fs.disk lim t → (entryAt fs.disk t).first = 0 → u32 n = 0) (clock : Nat) :
    Sound v lim m { fs with disk := putSize fs.disk t n, clock := clock } := by
  have hev := evolves_putSize hv hlim (d := fs.disk) ht n
  exact ⟨wf_putSize hv hlim h.wf ht hfit hzero, h.answers,
    h.tied.evolve hev (keepsLookups_putSize fs.disk t n), h.sized.evolve h.tied hev⟩

/-- **Truncation** to nothing keeps the invariant. -/
lemma fat32FileTruncate_sound (h : Sound v lim m fs) (i : Nat) :
    Sound v lim m (fat32FileTruncate v fs i 0).2 := by
  refine fat32FileTruncate_rule h fun rel nodes hnodes => ?_
  obtain ⟨r, hr⟩ := h.wf.dir_owns (o := .root) trivial trivial
  obtain ⟨res, d, k, hio, hd⟩ := fs.io_spec
    (wp_fat32TruncatePath hv (tableReads_none v) (hr.2.mono hlim) rel (u32 0))
    fun i t hne => absurd (h.answers i t) hne
  have hdone : Sound v lim m { fs with disk := d, clock := k } := by
    cases hd with
    | kept => exact ⟨h.wf, h.answers, h.tied, h.sized⟩
    | put _ hs _ =>
      exact h.putSize hv hlim (search_data hv (hr.2.mono hlim) hs) (fun _ _ => Nat.zero_le _)
        (fun _ _ => rfl) k
  rw [hio]
  rcases hnodes with rfl | rfl
  · exact hdone
  refine hdone.setSize fun node' pd' hnode' hpriv' htype' => ?_
  rcases hdone.sized i node' pd' hnode' hpriv' htype' with ⟨hf, -⟩ | ⟨l, hl, -⟩
  · exact .inl ⟨hf, rfl⟩
  · exact .inr ⟨l, hl, Nat.zero_le _⟩

end

/-! ## Writing -/

/-- The free clusters of the volume. -/
def freeBelow (v : Vol) (d : Disk) (lim : Nat) : List Nat :=
  (range lim).filter fun c => 2 ≤ c ∧ fatVal v d c = 0

lemma mem_freeBelow {c : Nat} : c ∈ freeBelow v d lim ↔ c < lim ∧ 2 ≤ c ∧ fatVal v d c = 0 := by
  rw [freeBelow, mem_filter, mem_range, decide_eq_true_iff]

/-- Clusters are taken from below: with enough of them free, none beyond the volume is taken. -/
lemma Grown.below (h : Grown v d d' l new) (hlen : new.length ≤ (freeBelow v d lim).length) :
    ∀ c ∈ new, c < lim := by
  intro g hg
  by_contra hge
  have hnot : g ∉ freeBelow v d lim := fun hmem => hge (mem_freeBelow.mp hmem).1
  have hfree : (g :: freeBelow v d lim).Nodup := nodup_cons.mpr ⟨hnot, nodup_range.filter _⟩
  have hsub : g :: freeBelow v d lim ⊆ new := by
    intro c hc
    rcases mem_cons.mp hc with rfl | hc
    · exact hg
    · obtain ⟨hlt, h2, h0⟩ := mem_freeBelow.mp hc
      exact h.lowest g hg c h2 (by omega) h0
  have hle := (subperm_of_subset hfree hsub).length_le
  rw [length_cons] at hle
  omega

/-- The number of clusters a file has to have for a write. -/
def clustersFor (v : Vol) (offset count : Nat) : Nat :=
  (u32 offset + u32 count - 1) / v.bytesPerCluster + 1

lemma FileWritten.written {rel : Option (List UInt8)}
    (h : FileWritten v d first l r rel offset data new res d') :
    ∃ r d', Written v d first l (u32 offset) (data.take (u32 data.length)) r d' new := by
  cases h with
  | failed h _ => exact ⟨_, _, h⟩
  | sized h _ _ _ _ => exact ⟨_, _, h⟩

/-- With enough clusters free, a write takes none beyond the volume. -/
lemma FileWritten.below {rel : Option (List UInt8)}
    (h : FileWritten v d first l r rel offset data new res d')
    (hroom : clustersFor v offset data.length ≤ l.length + (freeBelow v d lim).length) :
    ∀ c ∈ new, c < lim := by
  obtain ⟨r, d', hw⟩ := h.written
  refine hw.grown.below ?_
  have hsize := hw.size
  have hle : u32 data.length ≤ data.length := Nat.mod_le _ _
  rw [length_append, length_take, min_eq_left hle] at hsize
  rw [clustersFor] at hroom
  omega

/-- Offset and private data of an open file. -/
def Fs.target (fs : Fs) (f : Nat) : Option (Nat × Priv) :=
  (fs.files[f]?).bind fun file =>
    (fs.nodes[file.vnode]?).bind fun node => node.priv.map fun pd => (file.offset, pd)

/-- There are free clusters for the write. -/
def WriteRoom (v : Vol) (lim : Nat) (fs : Fs) (f : Nat) (data : List UInt8) : Prop :=
  ∀ x ∈ fs.target f, clustersFor v x.1 data.length ≤
    (chainFrom v fs.disk v.entries x.2.first).length + (freeBelow v fs.disk lim).length
deriving Decidable

/-- A buffer whose length is cut to nothing is not written behind the last cluster. -/
def WriteInside (v : Vol) (fs : Fs) (f : Nat) (data : List UInt8) : Prop :=
  ∀ x ∈ fs.target f, data ≠ [] → u32 data.length = 0 →
    u32 x.1 ≤ capacity v (chainFrom v fs.disk v.entries x.2.first)
deriving Decidable

section
variable (hv : v.Shaped) {m : Nat} (hlim : lim ≤ v.entries) {fs : Fs}

lemma capacity_append (l new : List Nat) : capacity v l ≤ capacity v (l ++ new) :=
  Nat.mul_le_mul_right _ (by rw [length_append]; omega)

include hv hlim

/-- The data of a write keeps the invariant. -/
lemma Written.sound (h : Sound v lim m fs) {f : Loc} (hf : FileOf v fs.disk lim f l)
    {r : Option Nat} (hw : Written v fs.disk (entryAt fs.disk f).first l offset data r d new)
    (hnew : ∀ c ∈ new, c < lim) (clock : Nat) :
    Sound v lim m { fs with disk := d, clock := clock } := by
  have hev := evolves_write hv hlim h.wf hf hw.grown hw.chain hnew hw.other
  refine ⟨hev.wf hv hlim h.wf (fun _ hx => hx.elim) fun s hs hdot hdir => ?_, h.answers,
    h.tied.evolve hev ?_, h.sized.evolve h.tied hev⟩
  · rw [entry_same hv hlim h.wf hf hw.grown.fresh hw.other hs]
    rcases h.wf.size s hs hdot hdir with h0 | ⟨l', hl', hle⟩
    · exact .inl h0
    · exact .inr ⟨l', hl', hle.trans (capacity_append _ _)⟩
  intro o mp name e hdir ho hs
  rw [← hs]
  refine search_congr fun s hs => ?_
  dsimp only
  rw [entryAt, entryAt, dir_sector_same hv hlim h.wf hf hw.grown.fresh hw.other hdir ho hs]

omit hv hlim in
/-- The vnode of a file stands for a live entry of a file. -/
lemma Sound.fileOf (h : Sound v lim m fs) (hnode : fs.nodes[i]? = some node)
    (hpriv : node.priv = some pd) (htype : node.type = .reg) :
    ∃ p xs o mp e, TiedTo v lim fs.disk (shapes fs.nodes) m node.shape p xs o mp e ∧
      Under (shapes fs.nodes) m i (xs ++ [node.name]) ∧ pd.first = (entryAt fs.disk e).first ∧
      ∀ l, ChainAt v fs.disk lim pd.first l → FileOf v fs.disk lim e l := by
  obtain ⟨him, p, xs, o, mp, e, ht, heq⟩ := h.tied.file hnode hpriv htype
  refine ⟨p, xs, o, mp, e, ht, .child ht.under (shapes_of_node hnode) ht.parent ht.name him, heq,
    fun l hl => ?_⟩
  refine ⟨ht.live.1, ht.live.2.1, fun hdir => ?_, heq ▸ hl⟩
  have htype' := ht.type
  rw [Vnode.shape, htype, if_neg hdir] at htype'
  exact VnodeType.noConfusion htype'

/-- The slot whose size is rewritten for a vnode is that of its entry, or that of a volume label. -/
lemma Sound.sizeSlot (h : Sound v lim m fs) {p : Nat} {s : Shape} {xs : List (List UInt8)}
    {mp : List Nat} {e : Loc} (ht : TiedTo v lim fs.disk (shapes fs.nodes) m s p xs o mp e)
    (hunder : Under (shapes fs.nodes) m i (xs ++ [s.name]))
    (hrel : entryPath fs.nodes i = some path) (hroot : (splitLast path).1 = none)
    (hr : ChainAt v fs.disk lim v.root r)
    (hs : search (sizeVerdict (to83 (splitLast path).2)) fs.disk (dirSlots v r) = some t) :
    t = e ∨ ¬ (entryAt fs.disk t).Listed := by
  cases xs with
  | cons x xs =>
    exfalso
    obtain rfl := entryPath_eq h.tied.mount hunder hrel
    cases xs with
    | nil => exact splitLast_joined (hunder.components x mem_cons_self) hroot
    | cons y ys => exact splitLast_joined (hunder.components x mem_cons_self) hroot
  | nil =>
    obtain rfl := entryPath_eq h.tied.mount hunder hrel
    have hjoin : joined [s.name] = s.name := by rw [joined, flatMap_nil, append_nil]
    rw [hjoin, splitLast_component ht.name] at hs
    -- the parent is the mount point, so that the directory is the root
    have hpm : p = m := by
      have hu := ht.under
      generalize hys : ([] : List (List UInt8)) = ys at hu
      cases hu with
      | mount => rfl
      | child => simp at hys
    obtain ⟨ms, hms, -, hfirst⟩ := h.tied.mount.node
    rw [← hpm] at hms
    obtain rfl := (ht.chain hms hfirst).unique hv hr hlim
    exact sizeSlot_eq ht.found hs

omit hv hlim in
/-- A write ends at or before the end of the chain, unless its length is cut to nothing. -/
lemma Written.stop_le {stop : Nat}
    (h : Written v d first l (u32 offset) (data.take (u32 data.length)) (some stop) d' new)
    (hinside : u32 data.length = 0 → u32 offset ≤ capacity v l) : stop ≤ capacity v (l ++ new) := by
  by_cases h0 : u32 data.length = 0
  · rw [h0, take_zero] at h
    have hlt : u32 offset < 2 ^ 32 := Nat.mod_lt _ (by decide)
    have hstop := (h.put stop rfl (by simpa using hlt)).1
    rw [hstop]
    exact (hinside h0).trans (capacity_append _ _)
  refine h.inside stop rfl fun hnil => h0 ?_
  have hlen := congrArg length hnil
  have hle : u32 data.length ≤ data.length := Nat.mod_le _ _
  rw [length_take, length_nil, min_eq_left hle] at hlen
  exact hlen

/-- The transfers of a write keep the invariant, and the size they end with fits. -/
lemma FileWritten.sound (h : Sound v lim m fs) (hnode : fs.nodes[i]? = some node)
    (hpriv : node.priv = some pd) (htype : node.type = .reg) (hl : ChainAt v fs.disk lim pd.first l)
    (hr : ChainAt v fs.disk lim v.root r)
    (hw : FileWritten v fs.disk pd.first l r (entryPath fs.nodes i) offset data new res d)
    (hnew : ∀ c ∈ new, c < lim) (hinside : u32 data.length = 0 → u32 offset ≤ capacity v l)
    (clock : Nat) :
    Sound v lim m { fs with disk := d, clock := clock } ∧
      ∀ n, res = .ok n → ∃ l', ChainAt v d lim pd.first l' ∧ n ≤ capacity v l' := by
  obtain ⟨p, xs, o, mp, e, ht, hunder, heq, hfile⟩ := h.fileOf hnode hpriv htype
  have hf := hfile l hl
  rw [heq] at hw ⊢
  cases hw with
  | failed hw hres => exact ⟨hw.sound hv hlim h hf hnew clock, fun n hn => absurd hn (hres n)⟩
  | @sized stop d1 path s hw hrel hroot hs hres =>
    have h₁ := hw.sound hv hlim h hf hnew clock
    have hstop := hw.stop_le hinside
    have hev := evolves_write hv hlim h.wf hf hw.grown hw.chain hnew hw.other
    have hchain : ChainAt v d1 lim (entryAt fs.disk e).first (l ++ new) := by
      have hc := hev.chains (.entry e) l hf.owns
      rwa [if_pos rfl] at hc
    have he := entry_same hv hlim h.wf hf hw.grown.fresh hw.other hf.live
    have ho : Owns v fs.disk lim .root r := ⟨trivial, hr⟩
    have hrootDir : Owner.root.IsDir fs.disk := trivial
    have hsame : ∀ t ∈ dirSlots v r, entryAt d1 t = entryAt fs.disk t := fun t ht => by
      rw [entryAt, entryAt, dir_sector_same hv hlim h.wf hf hw.grown.fresh hw.other hrootDir ho ht]
    have hsd : v.dataStart ≤ s.1 := slot_data hv hlim hr (mem_of_search hs)
    -- the slot is that of the file, or not live
    have hslot : s = e ∨ ¬ (entryAt d1 s).Listed := by
      have hs' : search (sizeVerdict (to83 (splitLast path).2)) fs.disk (dirSlots v r) = some s := by
        rw [← hs]
        exact search_congr fun t ht => by rw [hsame t ht]
      rw [hsame s (mem_of_search hs)]
      exact h.sizeSlot hv hlim ht hunder hrel hroot hr hs'
    have hlive : Live v d1 lim s → s = e := fun hlive => by
      obtain ⟨_, _, _, _, hmem⟩ := hlive.owner
      exact hslot.resolve_right fun hn => hn (listed_of_live hmem).2
    have h2 := h₁.putSize hv hlim (t := s) hsd (n := stop) ?_ ?_ clock
    · refine ⟨h2, fun n hn => ?_⟩
      obtain rfl := hres n hn
      exact ⟨l ++ new, hchain.congr fun c hc =>
        fatVal_update hv (hw.chain.range c hc).2 hsd _, hstop⟩
    · intro l' hl'
      obtain rfl := hlive hl'.live
      have hc := hl'.chain
      rw [he] at hc
      obtain rfl := hc.unique hv hchain hlim
      exact (Nat.mod_le _ _).trans hstop
    intro hlive' hfirst
    obtain rfl := hlive hlive'
    dsimp only at hfirst
    rw [he] at hfirst
    have h2 := (hl.range _ hl.first_mem).1
    omega

omit hv hlim in
/-- A write call does nothing, or transfers and then sets size and offset. -/
lemma fdWrite_cases (v : Vol) (fs : Fs) (f : Nat) (data : List UInt8) :
    (∃ r, (r = .err ∨ data = [] ∧ r = .ok 0) ∧ fdWrite v fs f data = (r, fs)) ∨
      ∃ file node pd, fs.files[f]? = some file ∧ fs.nodes[file.vnode]? = some node ∧
        node.type = .reg ∧ node.priv = some pd ∧ file.flags ≠ 0 ∧ data ≠ [] ∧
        fdWrite v fs f data =
          match fs.io (fat32FileWrite v (entryPath fs.nodes file.vnode) pd.first file.offset data) with
          | (.ok newSize, fs) =>
            (.ok data.length, { fs with
                nodes := setSize fs.nodes file.vnode newSize
                files := fs.files.set f { file with offset := file.offset + data.length } })
          | (r, fs) => (r, fs) := by
  rw [fdWrite]
  cases hfile : fs.files[f]? with
  | none => exact .inl ⟨.err, .inl rfl, rfl⟩
  | some file =>
    dsimp only
    cases hnode : fs.nodes[file.vnode]? with
    | none => exact .inl ⟨.err, .inl rfl, rfl⟩
    | some node =>
      dsimp only
      cases htype : node.type with
      | dir => exact .inl ⟨.err, .inl rfl, rfl⟩
      | chr => exact .inl ⟨.err, .inl rfl, rfl⟩
      | blk => exact .inl ⟨.err, .inl rfl, rfl⟩
      | reg =>
        cases hpriv : node.priv with
        | none => exact .inl ⟨.err, .inl rfl, rfl⟩
        | some pd =>
          dsimp only
          split
          · exact .inl ⟨.err, .inl rfl, rfl⟩
          rename_i hflags
          split_ifs with hdata
          · exact .inl ⟨.ok 0, .inr ⟨by assumption, rfl⟩, rfl⟩
          · exact Or.inr ⟨file, node, pd, rfl, hnode, htype, hpriv, hflags, hdata, rfl⟩

/-- **Writing** keeps the invariant if there are clusters for the data. -/
lemma fdWrite_sound (h : Sound v lim m fs) (f : Nat) (data : List UInt8)
    (hroom : lim = v.entries ∨ WriteRoom v lim fs f data) (hinside : WriteInside v fs f data) :
    Sound v lim m (fdWrite v fs f data).2 := by
  rcases fdWrite_cases v fs f data with
    ⟨r, -, heq⟩ | ⟨file, node, pd, hfile, hnode, htype, hpriv, -, hdata, heq⟩
  · rw [heq]
    exact h
  rw [heq]
  have htarget : (file.offset, pd) ∈ fs.target f := by simp [Fs.target, hfile, hnode, hpriv]
  rcases h.sized _ node pd hnode hpriv htype with ⟨h0, -⟩ | ⟨l, hl, -⟩
  · rw [h0, fat32FileWrite_first_zero]
    exact ⟨h.wf, h.answers, h.tied, h.sized⟩
  obtain ⟨r, hr⟩ := h.wf.dir_owns (o := .root) trivial trivial
  obtain ⟨_, _, _, _, e, _, _, heq, hfileOf⟩ := h.fileOf hnode hpriv htype
  have hinside' := hinside _ htarget hdata
  rw [chainFrom_eq hv hlim hl] at hinside'
  have hwp := wp_fat32FileWrite hv hlim (tableReads_none v) h.wf (hfileOf l hl)
    hr.2 (entryPath fs.nodes file.vnode) file.offset data
  rw [← heq] at hwp
  obtain ⟨res, d, k, hio, new, hw⟩ := fs.io_spec hwp fun i t hne => absurd (h.answers i t) hne
  have hnew : ∀ c ∈ new, c < lim := by
    rcases hroom with hall | hroom
    · obtain ⟨_, _, hw⟩ := hw.written
      rw [hall]
      exact fun c hc => (hw.grown.fresh c hc).2.1
    · have hroom' := hroom _ htarget
      rw [chainFrom_eq hv hlim hl] at hroom'
      exact hw.below hroom'
  obtain ⟨hs, hfit⟩ := hw.sound hv hlim h hnode hpriv htype hl hr.2 hnew hinside' k
  rw [hio]
  cases res with
  | err => exact hs
  | fault => exact hs
  | ok n =>
    have hset := hs.setSize (i := file.vnode) (n := n) fun node' pd' hnode' hpriv' _ => ?_
    · exact ⟨hset.wf, hset.answers, hset.tied, hset.sized⟩
    · obtain rfl := Option.mem_unique hnode hnode'
      obtain rfl := Option.mem_unique hpriv hpriv'
      exact .inr (hfit n rfl)

end
end FermiOs.Fat32
