import FermiOs.Fs.Fat32.Table
import FermiOs.Library.Links

/-!
# Cluster chains

A chain is a path through the table from a first cluster to an end mark. The table is only ever
changed by taking free clusters and by linking one behind the last cluster of a chain: `Grown` says
what that leaves alone, and the walks of `fat_seek_cluster` keep it whatever writes are refused, as long
as the table can be read.
-/

namespace FermiOs.Fat32
open Library List Function
variable {c i : Nat} {d d' d'' : Disk} {l new : List Nat} {r : Option Nat} {v : Vol}

/-- The clusters `l` are the chain that starts at `first`; all are below `lim`. -/
structure ChainAt (v : Vol) (d : Disk) (lim first : Nat) (l : List Nat) : Prop where
  path : ∃ e, fatEoc ≤ e ∧ Path (fatVal v d) first l e
  range : ∀ c ∈ l, 2 ≤ c ∧ c < lim
  ne : l ≠ []

section
variable (hv : v.Shaped) {lim first : Nat} {l' : List Nat}

section
variable (h : ChainAt v d lim first l)
include h

lemma ChainAt.mono {lim' : Nat} (hl : lim ≤ lim') : ChainAt v d lim' first l :=
  ⟨h.path, fun c hc => ⟨(h.range c hc).1, lt_of_lt_of_le (h.range c hc).2 hl⟩, h.ne⟩

lemma ChainAt.congr (hd : ∀ c ∈ l, fatVal v d' c = fatVal v d c) : ChainAt v d' lim first l := by
  obtain ⟨e, he, hp⟩ := h.path
  exact ⟨⟨e, he, hp.congr hd⟩, h.range, h.ne⟩

lemma ChainAt.head : l = first :: l.tail := by
  obtain ⟨e, -, hp⟩ := h.path
  cases l with
  | nil => exact absurd rfl h.ne
  | cons c cs =>
    obtain ⟨rfl, -⟩ := hp
    rfl

lemma ChainAt.first_mem : first ∈ l := by
  rw [h.head]
  exact mem_cons_self

end

include hv

section
variable (h : ChainAt v d lim first l)
include h

lemma ChainAt.not_end (hlim : lim ≤ v.entries) : ∀ c ∈ l, ¬ fatEoc ≤ c := by
  intro c hc
  have h1 := (h.range c hc).2
  have h2 := hv.numbers
  omega

lemma ChainAt.unique (h' : ChainAt v d lim first l') (hlim : lim ≤ v.entries) : l = l' := by
  obtain ⟨e, he, hp⟩ := h.path
  obtain ⟨e', he', hp'⟩ := h'.path
  exact hp.unique_of_stop (fatEoc ≤ ·) hp' he he' (h.not_end hv hlim) (h'.not_end hv hlim)

lemma ChainAt.nodup (hlim : lim ≤ v.entries) : l.Nodup := by
  obtain ⟨e, he, hp⟩ := h.path
  exact hp.nodup_of_stop (fatEoc ≤ ·) he (h.not_end hv hlim)

end

omit hv in
/-- The clusters of a chain are in use. -/
lemma ChainAt.used (h : ChainAt v d lim first l) (hc : c ∈ l) : fatVal v d c ≠ 0 := by
  obtain ⟨e, he, hp⟩ := h.path
  rcases hp.next_mem hc with hin | hend
  · have := (h.range _ hin).1
    omega
  · rw [hend]
    simp only [fatEoc] at he
    omega

omit hv in
lemma ChainAt.next_last {z : Nat} (h : ChainAt v d lim first (l ++ [z])) : fatEoc ≤ fatVal v d z := by
  obtain ⟨e, he, hp⟩ := h.path
  rw [hp.next_last]
  exact he

omit hv in
lemma ChainAt.next_inner {c' : Nat} {as bs : List Nat}
    (h : ChainAt v d lim first (as ++ c :: c' :: bs)) : fatVal v d c = c' := by
  obtain ⟨e, -, hp⟩ := h.path
  obtain ⟨r, -, rfl, rfl, -⟩ := Path.append_iff.mp hp
  rfl

/-- A walk over the chain `l` stands at `c`, the first cluster of `post` or the end mark. -/
structure Standing (l pre post : List Nat) (c : Nat) : Prop where
  split : l = pre ++ post
  here : ∀ x ∈ post.head?, c = x
  last : post = [] → fatEoc ≤ c

omit hv in
lemma ChainAt.standing (hl : ChainAt v d lim first l) : Standing l [] l first := by
  refine ⟨rfl, fun x hx => ?_, fun h => absurd h hl.ne⟩
  rw [hl.head] at hx
  cases hx
  rfl

omit hv in
lemma ChainAt.standing_next {pre xs : List Nat} (hl : ChainAt v d lim first l)
    (h : Standing l pre (c :: xs) c) : Standing l (pre ++ [c]) xs (fatVal v d c) := by
  have hsplit := h.split
  refine ⟨by simp [hsplit], fun y hy => ?_, ?_⟩
  · cases xs with
    | nil => cases hy
    | cons y' ys =>
      cases hy
      rw [hsplit] at hl
      exact hl.next_inner
  · rintro rfl
    rw [hsplit] at hl
    exact hl.next_last

end

/-! ## Growth -/

/-- From `d` to `d'` the chain `l` was grown by `new`: entries in use stay, that of the last cluster of
the chain apart; the new clusters were free; and they were taken from below. -/
structure Grown (v : Vol) (d d' : Disk) (l new : List Nat) : Prop where
  kept : ∀ c, 2 ≤ c → c < v.entries → fatVal v d c ≠ 0 → c ∉ l.getLast? → fatVal v d' c = fatVal v d c
  used : ∀ c, 2 ≤ c → c < v.entries → fatVal v d c ≠ 0 → fatVal v d' c ≠ 0
  fresh : ∀ c ∈ new, 2 ≤ c ∧ c < v.entries ∧ fatVal v d c = 0
  lowest : ∀ g ∈ new, ∀ c, 2 ≤ c → c < g → fatVal v d c = 0 → c ∈ new

/-- Every cluster taken from `d` to `d'` is among `new`. -/
def Tidy (v : Vol) (d d' : Disk) (new : List Nat) : Prop :=
  ∀ c, 2 ≤ c → c < v.entries → fatVal v d c = 0 → fatVal v d' c ≠ 0 → c ∈ new

section
variable {new' : List Nat} {first : Nat}

lemma Grown.refl (v : Vol) (d : Disk) (l : List Nat) : Grown v d d l [] :=
  ⟨fun _ _ _ _ _ => rfl, fun _ _ _ h => h, forall_mem_nil _, forall_mem_nil _⟩

lemma Tidy.refl (v : Vol) (d : Disk) : Tidy v d d [] := fun _ _ _ h h' => absurd h h'

lemma Tidy.trans (h : Tidy v d d' new) (h' : Tidy v d' d'' new') : Tidy v d d'' (new ++ new') := by
  intro c h2 hc hfree hused
  by_cases hmid : fatVal v d' c = 0
  · exact mem_append_right _ (h' c h2 hc hmid hused)
  · exact mem_append_left _ (h c h2 hc hfree hmid)

lemma Grown.trans (h : Grown v d d' l new) (ht : Tidy v d d' new)
    (h' : Grown v d' d'' (l ++ new) new') : Grown v d d'' l (new ++ new') where
  kept := by
    intro c h2 hc hne hlast
    have hmid := h.kept c h2 hc hne hlast
    rw [h'.kept c h2 hc (by rw [hmid]; exact hne) ?_, hmid]
    -- the end of the grown chain is the old end or was free
    rw [getLast?_append]
    intro hmem
    cases hnew : new.getLast? with
    | none =>
      rw [hnew] at hmem
      exact hlast hmem
    | some z =>
      rw [hnew] at hmem
      cases hmem
      exact hne (h.fresh c (mem_of_getLast? hnew)).2.2
  used := fun c h2 hc hne => h'.used c h2 hc (h.used c h2 hc hne)
  fresh := by
    intro c hc
    rcases mem_append.mp hc with hc | hc
    · exact h.fresh c hc
    · obtain ⟨h2, hlt, hfree⟩ := h'.fresh c hc
      refine ⟨h2, hlt, ?_⟩
      by_contra hne
      exact h.used c h2 hlt hne hfree
  lowest := by
    intro g hg c h2 hlt hfree
    rcases mem_append.mp hg with hg | hg
    · exact mem_append_left _ (h.lowest g hg c h2 hlt hfree)
    · have hc : c < v.entries := lt_trans hlt (h'.fresh g hg).2.1
      by_cases hmid : fatVal v d' c = 0
      · exact mem_append_right _ (h'.lowest g hg c h2 hlt hmid)
      · exact mem_append_left _ (ht c h2 hc hfree hmid)

end

/-! ## Taking a cluster -/

/-- No sector of the data differs. -/
def SameData (v : Vol) (d d' : Disk) : Prop := ∀ n, v.dataStart ≤ n → d' n = d n

lemma SameData.trans (h : SameData v d d') (h' : SameData v d' d'') :
    SameData v d d'' := fun n hn => (h' n hn).trans (h n hn)

/-- No sector in front of the table differs, no entry in its upper bits, and the first two entries not
at all. -/
structure TableSpared (v : Vol) (d d' : Disk) : Prop where
  front : ∀ n, n < v.fatStart → d' n = d n
  upper : ∀ c, c < v.entries → fatRaw v d' c / 2 ^ 28 = fatRaw v d c / 2 ^ 28
  first : ∀ c, c < 2 → fatVal v d' c = fatVal v d c

/-- Only entries of the table differ. -/
structure TableOnly (v : Vol) (d d' : Disk) : Prop where
  data : SameData v d d'
  spared : TableSpared v d d'

lemma TableSpared.refl (v : Vol) (d : Disk) : TableSpared v d d :=
  ⟨fun _ _ => rfl, fun _ _ => rfl, fun _ _ => rfl⟩

lemma TableSpared.trans (h : TableSpared v d d') (h' : TableSpared v d' d'') : TableSpared v d d'' :=
  ⟨fun n hn => (h'.front n hn).trans (h.front n hn),
    fun c hc => (h'.upper c hc).trans (h.upper c hc), fun c hc => (h'.first c hc).trans (h.first c hc)⟩

lemma TableOnly.refl (v : Vol) (d : Disk) : TableOnly v d d := ⟨fun _ _ => rfl, .refl v d⟩

lemma TableOnly.trans (h : TableOnly v d d') (h' : TableOnly v d' d'') :
    TableOnly v d d'' := ⟨h.data.trans h'.data, h.spared.trans h'.spared⟩

lemma setFat_tableOnly (hv : v.Shaped) {x : Nat} (h2 : 2 ≤ c) (hc : c < v.entries) :
    TableOnly v d (setFat v d c x) where
  data := fun n hn => setFat_data hv hc hn
  spared := by
    refine ⟨fun n hn => ?_, fun c' hc' => ?_, fun c' hc' => ?_⟩
    · have hsec := fatSector_eq hv hc
      exact update_of_ne (by omega) _ _
    · rw [fatRaw_setFat hv hc hc']
      split_ifs with heq
      · rw [heq]
        omega
      · rfl
    · rw [fatVal_setFat hv hc (by omega), if_neg (by omega)]

/-- The first free cluster `g` is marked as an end, and the entries of `zs` may differ. -/
structure Marked (v : Vol) (d d' : Disk) (g : Nat) (zs : List Nat) : Prop where
  first : FirstFree v d g
  mark : fatEoc ≤ fatVal v d' g
  rest : ∀ c, c < v.entries → c ≠ g → c ∉ zs → fatVal v d' c = fatVal v d c
  table : TableOnly v d d'

lemma Marked.data {g : Nat} {zs : List Nat} (h : Marked v d d' g zs) : SameData v d d' := h.table.data

/-- What `fat_extend_chain` behind `z` ends with: a cluster linked behind `z`, reported or not; a
cluster taken and lost; or nothing. -/
inductive Extended (v : Vol) (d : Disk) (z : Nat) : Nat → Disk → Prop
  | linked {d' : Disk} {g r : Nat} (h : Marked v d d' g [z]) (hz : fatVal v d' z = g)
      (hr : r = g ∨ r = 0) : Extended v d z r d'
  | lost {d' : Disk} {g : Nat} (h : Marked v d d' g []) : Extended v d z 0 d'
  | none : Extended v d z 0 d

section
variable (hv : v.Shaped) {Fails : Transfer → Prop} {z g : Nat}
include hv

lemma FirstFree.marked (h : FirstFree v d g) : Marked v d (setFat v d g fatMark) g [] where
  first := h
  mark := by
    rw [fatVal_setFat hv h.upper h.upper, if_pos rfl]
    decide
  rest := by
    intro c hc hne _
    rw [fatVal_setFat hv h.upper hc, if_neg hne]
  table := setFat_tableOnly hv h.lower h.upper

/-- Linking the marked cluster behind `z`. -/
lemma Marked.link (h : Marked v d d' g []) (h2 : 2 ≤ z) (hz : z < v.entries) (hzg : z ≠ g) :
    Marked v d (setFat v d' z g) g [z] ∧ fatVal v (setFat v d' z g) z = g := by
  have hg := h.first.upper
  refine ⟨⟨h.first, ?_, ?_, ?_⟩, ?_⟩
  · rw [fatVal_setFat hv hz hg, if_neg hzg.symm]
    exact h.mark
  · intro c hc hne hcz
    rw [fatVal_setFat hv hz hc, if_neg (by simpa using hcz)]
    exact h.rest c hc hne not_mem_nil
  · exact h.table.trans (setFat_tableOnly hv h2 hz)
  · rw [fatVal_setFat hv hz hz, if_pos rfl]
    have := hv.numbers
    simp only [fatEoc] at this
    omega

/-- Marking the new end once more. -/
lemma Marked.again (h : Marked v d d' g [z]) (hz : z < v.entries) (hzg : z ≠ g) :
    Marked v d (setFat v d' g fatEoc) g [z] ∧ fatVal v (setFat v d' g fatEoc) z = fatVal v d' z := by
  have hg := h.first.upper
  refine ⟨⟨h.first, ?_, ?_, ?_⟩, ?_⟩
  · rw [fatVal_setFat hv hg hg, if_pos rfl]
    decide
  · intro c hc hne hcz
    rw [fatVal_setFat hv hg hc, if_neg hne]
    exact h.rest c hc hne hcz
  · exact h.table.trans (setFat_tableOnly hv h.first.lower hg)
  · rw [fatVal_setFat hv hg hz, if_neg hzg]

lemma wp_fatExtendChain (h2 : 2 ≤ z) (hz : z < v.entries) (hused : fatVal v d z ≠ 0) :
    (fatExtendChain v z 1).Wp Fails d (Extended v d z) := by
  rw [fatExtendChain, extendLoop, BlockProg.wp_bind]
  refine (wp_fatAllocCluster hv).mono fun nc d1 halloc => ?_
  cases halloc with
  | none => exact .none
  | refused c h _ => exact .lost (h.marked hv)
  | taken h =>
    have hne : nc ≠ 0 := by
      have := h.lower
      omega
    have hzg : z ≠ nc := by
      rintro rfl
      exact hused h.free
    have hmark := h.marked hv
    obtain ⟨hlink, hval⟩ := hmark.link hv h2 hz hzg
    rw [if_neg hne, BlockProg.wp_bind]
    refine wp_fatWrite ?_ fun _ => ⟨.lost hmark, .linked hlink hval (Or.inr rfl)⟩
    -- the link is written: the end is marked a second time, with or without success
    obtain ⟨hagain, hval'⟩ := hlink.again hv hz hzg
    have hdone : Extended v d z nc (setFat v (setFat v d nc fatMark) z nc) :=
      .linked hlink hval (Or.inl rfl)
    rw [if_pos rfl, if_pos rfl, extendLoop, if_neg hne, BlockProg.wp_bind]
    exact wp_fatWrite (.linked hagain (hval'.trans hval) (Or.inl rfl)) fun _ =>
      ⟨hdone, .linked hagain (hval'.trans hval) (Or.inl rfl)⟩

end

section
variable (hv : v.Shaped) {first z g : Nat}
include hv

/-- A cluster linked behind the last one grows the chain by it. -/
lemma Marked.grown (hl : ChainAt v d v.entries first (l ++ [z])) (h : Marked v d d' g [z])
    (hz : fatVal v d' z = g) :
    ChainAt v d' v.entries first (l ++ [z] ++ [g]) ∧ Grown v d d' (l ++ [z]) [g] ∧ Tidy v d d' [g] := by
  have hnodup := hl.nodup hv (le_refl _)
  have hgl : ∀ c ∈ l ++ [z], c ≠ g := by
    rintro c hc rfl
    exact hl.used hc h.first.free
  have hzl : z ∉ l := fun hmem =>
    (nodup_append.mp hnodup).2.2 z hmem z (mem_singleton.mpr rfl) rfl
  have hrest : ∀ c ∈ l, fatVal v d' c = fatVal v d c := by
    intro c hc
    have hmem : c ∈ l ++ [z] := mem_append_left _ hc
    refine h.rest c (hl.range c hmem).2 (hgl c hmem) fun hcz => ?_
    rw [mem_singleton] at hcz
    exact hzl (hcz ▸ hc)
  refine ⟨⟨?_, ?_, by simp⟩, ⟨?_, ?_, ?_, ?_⟩, ?_⟩
  · obtain ⟨e, he, hp⟩ := hl.path
    obtain ⟨r, hp', rfl, -⟩ := Path.append_iff.mp hp
    refine ⟨fatVal v d' g, h.mark, ?_⟩
    have hlast : Path (fatVal v d') r [r] g := ⟨rfl, hz⟩
    exact ((hp'.congr hrest).append hlast).append ⟨rfl, rfl⟩
  · intro c hc
    rcases mem_append.mp hc with hc | hc
    · exact hl.range c hc
    · rw [mem_singleton.mp hc]
      exact ⟨h.first.lower, h.first.upper⟩
  · intro c _ hc hne hlast
    refine h.rest c hc (fun heq => hne (heq ▸ h.first.free)) fun hcz => hlast ?_
    rw [mem_singleton.mp hcz, getLast?_append]
    rfl
  · intro c _ hc hne
    by_cases hcz : c = z
    · rw [hcz, hz]
      have := h.first.lower
      omega
    · rw [h.rest c hc (fun heq => hne (heq ▸ h.first.free)) (by simpa using hcz)]
      exact hne
  · intro c hc
    rw [mem_singleton.mp hc]
    exact ⟨h.first.lower, h.first.upper, h.first.free⟩
  · intro g' hg' c h2 hlt hfree
    rw [mem_singleton.mp hg'] at hlt
    exact absurd hfree (h.first.first c h2 hlt)
  intro c _ hc hfree hused
  by_contra hcg
  have hcz : c ≠ z := by
    rintro rfl
    exact hl.used (mem_append_right _ (mem_singleton.mpr rfl)) hfree
  rw [h.rest c hc (by simpa using hcg) (by simpa using hcz)] at hused
  exact hused hfree

omit hv in
/-- A cluster that is taken and lost leaves the chain alone. -/
lemma Marked.lost (hl : ChainAt v d v.entries first l) (h : Marked v d d' g []) :
    ChainAt v d' v.entries first l ∧ Grown v d d' l [] := by
  have hrest : ∀ c, c < v.entries → fatVal v d c ≠ 0 → fatVal v d' c = fatVal v d c :=
    fun c hc hne => h.rest c hc (fun heq => hne (heq ▸ h.first.free)) not_mem_nil
  refine ⟨hl.congr fun c hc => hrest c (hl.range c hc).2 (hl.used hc), ?_, ?_, ?_, ?_⟩
  · exact fun c _ hc hne _ => hrest c hc hne
  · exact fun c _ hc hne => (hrest c hc hne).symm ▸ hne
  · exact forall_mem_nil _
  · exact forall_mem_nil _

end

/-! ## Seeking -/

/-- The table can be read. -/
def TableReads (v : Vol) (Fails : Transfer → Prop) : Prop :=
  ∀ c, c < v.entries → ¬ Fails (.read (fatSector v c))

/-- What a seek to cluster `i` of the chain ends with: the chain has grown, to `i + 1` clusters at
most; on success it has a cluster there, and every cluster taken is in it. -/
structure Sought (v : Vol) (d : Disk) (first : Nat) (l : List Nat) (i : Nat) (r : Option Nat)
    (d' : Disk) (new : List Nat) : Prop where
  chain : ChainAt v d' v.entries first (l ++ new)
  grown : Grown v d d' l new
  table : TableOnly v d d'
  size : (l ++ new).length ≤ max l.length (i + 1)
  found : ∀ c, r = some c → (l ++ new)[i]? = some c ∧ Tidy v d d' new

section
variable (hv : v.Shaped) {Fails : Transfer → Prop} {first : Nat}

omit hv in
/-- A seek that gives up, after the chain may have grown. -/
lemma Sought.failed (chain : ChainAt v d' v.entries first (l ++ new)) (grown : Grown v d d' l new)
    (table : TableOnly v d d') (size : (l ++ new).length ≤ max l.length (i + 1)) :
    Sought v d first l i none d' new :=
  ⟨chain, grown, table, size, nofun⟩

omit hv in
lemma Sought.data (h : Sought v d first l i r d' new) : SameData v d d' := h.table.data

omit hv in
/-- A seek that goes on in the grown chain. -/
lemma Sought.after {new' : List Nat} (hgrown : Grown v d d' l new) (htidy : Tidy v d d' new)
    (htable : TableOnly v d d') (hsize : (l ++ new).length ≤ i + 1)
    (h : Sought v d' first (l ++ new) i r d'' new') :
    Sought v d first l i r d'' (new ++ new') where
  chain := append_assoc l new new' ▸ h.chain
  grown := hgrown.trans htidy h.grown
  table := htable.trans h.table
  size := by
    have := h.size
    rw [append_assoc] at this
    omega
  found := by
    intro c hc
    obtain ⟨hget, htidy'⟩ := h.found c hc
    rw [append_assoc] at hget
    exact ⟨hget, htidy.trans htidy'⟩

include hv

lemma wp_seekLoop (hread : TableReads v Fails) (n : Nat) : ∀ (d : Disk) (pre : List Nat) (c : Nat)
    (post : List Nat), ChainAt v d v.entries first (pre ++ c :: post) →
    (seekLoop v true n c).Wp Fails d fun r d' =>
      ∃ new, Sought v d first (pre ++ c :: post) (pre.length + n) r d' new := by
  induction n with
  | zero =>
    intro d pre c post hl
    refine ⟨[], (append_nil _).symm ▸ hl, .refl v d _, .refl v d, by simp, ?_⟩
    rintro _ ⟨⟩
    exact ⟨by simp, .refl v d⟩
  | succ n ih =>
    intro d pre c post hl
    have hc := hl.range c (by simp)
    have hi : (pre ++ [c]).length + n = pre.length + (n + 1) := by
      rw [length_append, length_singleton]
      omega
    rw [seekLoop, BlockProg.wp_bind]
    refine wp_fatNext ?_ fun hf => absurd hf (hread c hc.2)
    cases post with
    | cons x xs =>
      -- a link inside the chain
      have hx : ¬ fatEoc ≤ x := hl.not_end hv (le_refl _) x (by simp)
      have hsplit : pre ++ c :: x :: xs = (pre ++ [c]) ++ x :: xs := by simp
      rw [hl.next_inner, if_neg hx]
      rw [hsplit] at hl ⊢
      exact hi ▸ ih d (pre ++ [c]) x xs hl
    | nil =>
      -- the end of the chain
      have hused : fatVal v d c ≠ 0 := hl.used (by simp)
      rw [if_pos hl.next_last, if_pos rfl, BlockProg.wp_bind]
      refine (wp_fatExtendChain hv hc.1 hc.2 hused).mono fun grown d1 hext => ?_
      cases hext with
      | none =>
        exact ⟨[], .failed ((append_nil _).symm ▸ hl) (.refl v d _) (.refl v d) (by simp)⟩
      | lost h =>
        obtain ⟨hl1, hg⟩ := h.lost hl
        exact ⟨[], .failed ((append_nil _).symm ▸ hl1) hg h.table (by simp)⟩
      | @linked _ g _ h hz hr =>
        obtain ⟨hl1, hg, htidy⟩ := h.grown hv hl hz
        have hg0 : g ≠ 0 := by
          have := h.first.lower
          omega
        rcases hr with rfl | rfl
        · rw [if_neg hg0]
          refine (ih d1 (pre ++ [c]) grown [] hl1).mono fun r d' hs => ?_
          obtain ⟨new, hs⟩ := hs
          rw [hi] at hs
          exact ⟨[grown] ++ new, hs.after hg htidy h.table (by simp)⟩
        · exact ⟨[g], .failed hl1 hg h.table (by simp)⟩

/-- **Seeking.** With a table that can be read, the walk ends in the cluster of the offset. -/
lemma wp_fatSeekCluster (hread : TableReads v Fails) (hl : ChainAt v d v.entries first l)
    (offset : Nat) :
    (fatSeekCluster v first offset true).Wp Fails d fun r d' =>
      ∃ new, Sought v d first l (offset / v.bytesPerCluster) (r.map Prod.fst) d' new ∧
        ∀ p ∈ r, p.2 = offset % v.bytesPerCluster := by
  have hloop := wp_seekLoop hv hread (offset / v.bytesPerCluster) d [] first l.tail
    (hl.head ▸ hl)
  rw [nil_append, ← hl.head, length_nil, zero_add] at hloop
  rw [fatSeekCluster, BlockProg.wp_bind]
  refine hloop.mono fun r d' ⟨new, hs⟩ => ?_
  cases r with
  | none => exact ⟨new, hs, fun _ h => nomatch h⟩
  | some c =>
    refine ⟨new, hs, ?_⟩
    rintro _ ⟨⟩
    rfl

end
end FermiOs.Fat32
