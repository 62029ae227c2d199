import FermiOs.Fs.Fat32.Contents

/-!
# Creating files

`fat32_create` takes a cluster and writes an entry into the first unused slot of the directory. That
slot may have carried the end mark; the driver does not write a new one, so what stands in the slot
behind it comes back to life unless that is an end mark too.
-/

namespace FermiOs.Fat32
open Library List
variable {first : Nat} {l : List Nat} {name : List UInt8} {o : Owner} {s : Loc} {v : Vol}
  {x : DirEntry}

/-! ## Slots of a directory are distinct -/

lemma dirSlots_nodup (hv : v.Shaped) (hl : Clusters v l) : (dirSlots v l).Nodup := by
  have hsector : ∀ n, (sectorSlots n).Nodup := fun n =>
    nodup_range.map fun i j h => (Prod.mk.inj h).2
  have hcluster : ∀ c, ((range v.spc).flatMap fun s =>
      sectorSlots (clusterToSector v c + s)).Nodup := by
    intro c
    refine nodup_flatMap.mpr ⟨fun s _ => hsector _, nodup_range.imp fun hne s hs hs' => ?_⟩
    simp only [sectorSlots, mem_map] at hs hs'
    obtain ⟨i, -, rfl⟩ := hs
    obtain ⟨j, -, hj⟩ := hs'
    have := (Prod.mk.inj hj).1
    omega
  refine nodup_flatMap.mpr ⟨fun c _ => hcluster c, ?_⟩
  refine hl.nodup.imp_of_mem fun {c c'} hc hc' hne s hs hs' => hne ?_
  have hin : ∀ c, s ∈ (range v.spc).flatMap (fun s => sectorSlots (clusterToSector v c + s)) →
      InCluster v c s.1 := by
    intro c hs
    have hmem : s ∈ dirSlots v [c] := by simpa [dirSlots] using hs
    obtain ⟨⟨c', hc', hin⟩, -⟩ := mem_dirSlots.mp hmem
    rwa [mem_singleton.mp hc'] at hin
  exact (hin c hs).inj hv (hin c' hs') (hl.range c hc).1 (hl.range c hc).2 (hl.range c' hc').1
    (hl.range c' hc').2

/-! ## The new entry -/

section
variable {g : Nat}

lemma length_padded (n : Nat) (x : List UInt8) : (padded n x).length = n := by
  rw [padded, length_append, length_map, length_replicate, length_take]
  omega

lemma length_to83 (x : List UInt8) : (to83 x).length = 11 := by
  rw [to83, length_append, length_padded, length_padded]

section
variable (name : List UInt8)

lemma newEntry_name (g : Nat) : (newEntry name g).name = to83 name := by
  refine ext_getElem (by rw [DirEntry.name, length_map, length_range, length_to83])
    fun i h1 h2 => ?_
  have hi : i < 11 := by rwa [length_to83] at h2
  simp [DirEntry.name, newEntry, hi, getD_eq_getElem?_getD, getElem?_eq_getElem h2]

lemma newEntry_first (hg : g < 2 ^ 32) : (newEntry name g).first = g := by
  have h20 : newEntry name g 20 = UInt8.ofNat (g / 2 ^ 16) := rfl
  have h21 : newEntry name g (20 + 1) = UInt8.ofNat (g / 2 ^ 24) := rfl
  have h26 : newEntry name g 26 = UInt8.ofNat g := rfl
  have h27 : newEntry name g (26 + 1) = UInt8.ofNat (g / 2 ^ 8) := rfl
  rw [DirEntry.first, le16, le16, h20, h21, h26, h27]
  simp only [toNat_ofNat]
  omega

lemma newEntry_size (g : Nat) : (newEntry name g).size = 0 := by
  have h28 : newEntry name g 28 = 0 := rfl
  have h29 : newEntry name g (28 + 1) = 0 := rfl
  have h30 : newEntry name g (28 + 2) = 0 := rfl
  have h31 : newEntry name g (28 + 2 + 1) = 0 := rfl
  rw [DirEntry.size, le32, le16, le16, h28, h29, h30, h31]
  rfl

lemma newEntry_zero (g : Nat) : (to83 name).head? = some (newEntry name g 0) := by
  rw [← newEntry_name name g]
  rfl

end
end

/-! ## The change of the volume -/

/-- The slot `t` of a directory may be used: if it carries the end mark, so does the slot behind it. -/
def EndsClean (d : Disk) (slots : List Loc) (t : Loc) : Prop :=
  entryAt d t 0 = 0 → ∀ before after s, slots = before ++ t :: s :: after → entryAt d s 0 = 0

section
variable {d d' : Disk} {m : List Nat} {t : Loc}

lemma freeVerdict_hit : freeVerdict x = .hit ↔ x 0 = 0 ∨ x 0 = 0xE5 := by
  rw [freeVerdict]
  split
  · simp [*]
  · simp [*]

lemma freeVerdict_skip : freeVerdict x = .skip ↔ x 0 ≠ 0 ∧ x 0 ≠ 0xE5 := by
  rw [freeVerdict]
  split_ifs with h
  · simp only [false_iff]
    tauto
  · simp only [true_iff]
    tauto

/-- The live slots after an entry was put in the first unused slot. -/
lemma mem_liveSlots_put (hnodup : (dirSlots v m).Nodup)
    (ht : search freeVerdict d (dirSlots v m) = some t) (hclean : EndsClean d (dirSlots v m) t)
    (hsame : ∀ s ∈ dirSlots v m, s ≠ t → SameEntry (entryAt d s) (entryAt d' s))
    (h0 : entryAt d' t 0 ≠ 0) (s : Loc) :
    s ∈ liveSlots v d' m ↔ s ∈ liveSlots v d m ∨ (s = t ∧ (entryAt d' t).Listed) := by
  obtain ⟨before, after, hsplit, hskip, hhit⟩ := search_eq_some.mp ht
  rw [hsplit] at hnodup hsame hclean
  obtain ⟨-, hta, hbt⟩ := nodup_append.mp hnodup
  have hnb : t ∉ before := fun hmem => hbt t hmem t mem_cons_self rfl
  have hna : t ∉ after := (nodup_cons.mp hta).1
  have hbefore : ∀ s ∈ before, SameEntry (entryAt d s) (entryAt d' s) ∧ entryAt d s 0 ≠ 0 := fun s hs =>
    ⟨hsame s (mem_append_left _ hs) fun heq => hnb (heq ▸ hs), (freeVerdict_skip.mp (hskip s hs)).1⟩
  have hafter : ∀ s ∈ after, SameEntry (entryAt d s) (entryAt d' s) := fun s hs =>
    hsame s (mem_append_right _ (mem_cons_of_mem _ hs)) fun heq => hna (heq ▸ hs)
  have hnot : ¬ (entryAt d t 0 ≠ 0 ∧ (entryAt d t).Listed) := fun h =>
    (freeVerdict_hit.mp hhit).elim h.1 h.2.1
  -- the slots before the end mark, before and after
  have hpast' : (dirSlots v m).takeWhile (fun s => entryAt d' s 0 ≠ 0) =
      before ++ t :: after.takeWhile fun s => entryAt d' s 0 ≠ 0 := by
    rw [hsplit, takeWhile_append_of_pos fun s hs => ?_, takeWhile_cons_of_pos (by simpa using h0)]
    rw [(hbefore s hs).1 0 (by omega)]
    simpa using (hbefore s hs).2
  have htw : after.takeWhile (fun s => entryAt d' s 0 ≠ 0) =
      after.takeWhile fun s => entryAt d s 0 ≠ 0 :=
    takeWhile_congr fun s hs => by rw [hafter s hs 0 (by omega)]
  have hlisted : ∀ s, s ∈ before ∨ s ∈ after.takeWhile (fun s => entryAt d s 0 ≠ 0) →
      ((entryAt d' s).Listed ↔ (entryAt d s).Listed) := by
    rintro s (hs | hs)
    · exact (hbefore s hs).1.listed
    · exact (hafter s ((takeWhile_sublist _).subset hs)).listed
  rw [liveSlots, hpast', htw, mem_filter, mem_append, mem_cons, decide_eq_true_eq]
  by_cases hz : entryAt d t 0 = 0
  · -- the slot was the end mark, and the next one is
    have hnil : after.takeWhile (fun s => entryAt d s 0 ≠ 0) = [] := by
      cases hcons : after with
      | nil => rfl
      | cons x xs =>
        rw [hcons] at hclean
        exact takeWhile_cons_of_neg (by simpa using hclean hz before xs x rfl)
    have hold : liveSlots v d m = before.filter fun s => (entryAt d s).Listed := by
      rw [liveSlots, hsplit, takeWhile_append_of_pos fun s hs => by simpa using (hbefore s hs).2,
        takeWhile_cons_of_neg (by simpa using hz), append_nil]
    grind
  have hold : liveSlots v d m = (before ++ t :: after.takeWhile fun s => entryAt d s 0 ≠ 0).filter
      fun s => (entryAt d s).Listed := by
    rw [liveSlots, hsplit, takeWhile_append_of_pos fun s hs => by simpa using (hbefore s hs).2,
      takeWhile_cons_of_pos (by simpa using hz)]
  grind

end

section
variable (hv : v.Shaped) {lim : Nat} (hlim : lim ≤ v.entries) {d d₁ : Disk} {g : Nat}

/-- The sector of a slot of a directory is one of the data. -/
lemma slot_data (hv : v.Shaped) (hlim : lim ≤ v.entries) {m : List Nat}
    (hm : ChainAt v d lim first m) (hs : s ∈ dirSlots v m) : v.dataStart ≤ s.1 := by
  obtain ⟨⟨c, hc, hin⟩, -⟩ := mem_dirSlots.mp hs
  exact (hin.bounds hv (hm.range c hc).1 (lt_of_lt_of_le (hm.range c hc).2 hlim)).1

/-- A marked cluster leaves the chains alone. -/
lemma Marked.chain (h : Marked v d d₁ g []) (hlim : lim ≤ v.entries)
    (hl : ChainAt v d lim first l) : ChainAt v d₁ lim first l :=
  hl.congr fun c hc => h.rest c (lt_of_lt_of_le (hl.range c hc).2 hlim)
    (fun heq => hl.used hc (heq ▸ h.first.free)) not_mem_nil

include hv hlim

lemma evolves_mark (h : Marked v d d₁ g []) : Evolves v lim d d₁ (fun _ => []) fun _ => False :=
  .of_same (fun _ _ ho => h.chain hlim ho.2) fun _ _ ho s hs k _ => by
    rw [entryAt, entryAt, h.data s.1 (slot_data hv hlim ho.2 hs)]

/-- A cluster that is taken and lost keeps the volume well formed. -/
lemma wf_mark (h : Marked v d d₁ g []) (hw : Wf v d lim) : Wf v d₁ lim := by
  have hev := evolves_mark hv hlim h
  refine hev.wf hv hlim hw (fun _ hx => hx.elim) fun s hs hdot hdir => ?_
  obtain ⟨o, l, -, ho, hmem⟩ := hs.owner
  have hsize : (entryAt d₁ s).size = (entryAt d s).size := by
    rw [entryAt, entryAt, h.data s.1 (slot_data hv hlim ho.2 (mem_dirSlots_of_live hmem))]
  rw [hsize]
  rcases hw.size s hs hdot hdir with h0 | ⟨l, hl, hle⟩
  · exact .inl h0
  · exact .inr ⟨l, hl, by rwa [append_nil]⟩

variable (hw : Wf v d lim) (h : Marked v d d₁ g []) {m : List Nat} (ho : Owns v d lim o m) {t : Loc}
  (ht : search freeVerdict d (dirSlots v m) = some t) (hclean : EndsClean d (dirSlots v m) t)
  (h0 : newEntry name g 0 ≠ 0)

omit hv hlim in
include ht in
/-- The slot for a new entry is not live. -/
lemma dead_of_free : ¬ Live v d lim t := by
  intro hlive
  obtain ⟨o', m', -, -, hmem'⟩ := hlive.owner
  obtain ⟨before, after, -, -, hhit⟩ := search_eq_some.mp ht
  obtain ⟨hne, hlisted⟩ := listed_of_live hmem'
  exact (freeVerdict_hit.mp hhit).elim hne hlisted.1

include hw h ho ht hclean h0

/-- **Adding a file.** -/
lemma evolves_create : Evolves v lim d (putSlot d₁ t (newEntry name g))
      (fun o' => if o' = .entry t ∧ (newEntry name g).Listed then [g] else [])
      fun s => s = t ∧ (newEntry name g).Listed := by
  have hcl : Clusters v m := (ho.2.mono hlim).clusters hv
  have hmem : t ∈ dirSlots v m := mem_of_search ht
  have htd := slot_data hv hlim ho.2 hmem
  have hdead : ¬ Live v d lim t := dead_of_free ht
  have hsame : ∀ s, v.dataStart ≤ s.1 → s ≠ t →
      SameEntry (entryAt d s) (entryAt (putSlot d₁ t (newEntry name g)) s) := by
    intro s hs hne k hk
    rw [entryAt_putSlot (by omega), if_neg hne, entryAt, entryAt, h.data s.1 hs]
  have hlisted : (entryAt (putSlot d₁ t (newEntry name g)) t).Listed ↔ (newEntry name g).Listed := by
    have hnew : SameEntry (newEntry name g) (entryAt (putSlot d₁ t (newEntry name g)) t) :=
      fun k hk => by rw [entryAt_putSlot (by omega), if_pos rfl]
    exact hnew.listed
  refine ⟨fun o' l ho' => ?_, fun o' hdir' hex => ?_, fun o' c hc => ?_, fun o1 o2 c hc hc' => ?_,
    fun o' m' hdir' ho' s => ?_, fun s hs => ?_, ?_⟩
  · have hold : o' ≠ .entry t := by
      rintro rfl
      exact hdead ho'.1.1
    rw [if_neg fun hx => hold hx.1, append_nil]
    exact (h.chain hlim ho'.2).congr fun c hc =>
      fatVal_update hv (lt_of_lt_of_le (ho'.2.range c hc).2 hlim) htd _
  · refine if_neg fun hx => ?_
    rw [hx.1] at hex
    exact hdead hex.1
  · split at hc
    · rw [mem_singleton.mp hc]
      exact h.first.free
    · exact absurd hc not_mem_nil
  · split at hc
    · split at hc'
      · rename_i hx hx'
        rw [hx.1, hx'.1]
      · exact absurd hc' not_mem_nil
    · exact absurd hc not_mem_nil
  · by_cases heq : o' = o
    · subst heq
      obtain rfl := ho'.2.unique hv ho.2 hlim
      rw [mem_liveSlots_put (dirSlots_nodup hv hcl) ht hclean
        (fun s hs hne => hsame s (slot_data hv hlim ho.2 hs) hne) ?_ s, hlisted]
      · constructor
        · rintro (hl | ⟨rfl, hl⟩)
          · exact .inl hl
          · exact .inr ⟨⟨rfl, hl⟩, hmem⟩
        · rintro (hl | ⟨hx, -⟩)
          · exact .inl hl
          · exact .inr hx
      · rw [entryAt_putSlot (by omega), if_pos rfl]
        exact h0
    -- another directory does not have the slot
    have hnot : ∀ s ∈ dirSlots v m', s ≠ t := by
      rintro s hs rfl
      obtain ⟨⟨c, hc, hin⟩, -⟩ := mem_dirSlots.mp hs
      obtain ⟨⟨c', hc', hin'⟩, -⟩ := mem_dirSlots.mp hmem
      have hr := (ho'.2.mono hlim).range c hc
      have hr' := hcl.range c' hc'
      obtain rfl := hin.inj hv hin' hr.1 hr.2 hr'.1 hr'.2
      exact hw.apart o' o m' m ho' ho heq c hc hc'
    rw [liveSlots_congr fun s hs => hsame s (slot_data hv hlim ho'.2 hs) (hnot s hs)]
    exact ⟨.inl, fun hx => hx.elim id fun hx => absurd hx.1.1 (hnot s hx.2)⟩
  · obtain ⟨o', m', -, ho', hmem'⟩ := hs.owner
    refine hsame s (slot_data hv hlim ho'.2 (mem_dirSlots_of_live hmem')) ?_
    rintro rfl
    exact hdead hs
  · rintro s ⟨rfl, -⟩
    have hattr : newEntry name g 11 = 0x20 := rfl
    rw [DirEntry.IsDir, DirEntry.attr, entryAt_putSlot (by omega), if_pos rfl, hattr]
    decide

/-- A new entry owns the cluster that was taken for it. -/
lemma wf_create (hg : g < lim) : Wf v (putSlot d₁ t (newEntry name g)) lim := by
  have hev := evolves_create hv hlim hw h ho ht hclean h0
  have htd := slot_data hv hlim ho.2 (mem_of_search ht)
  have hent : ∀ k, k < 32 → entryAt (putSlot d₁ t (newEntry name g)) t k = newEntry name g k :=
    fun k hk => by rw [entryAt_putSlot hk, if_pos rfl]
  have hnew : SameEntry (newEntry name g) (entryAt (putSlot d₁ t (newEntry name g)) t) :=
    fun k hk => hent k (by omega)
  have hnum := hv.numbers
  refine hev.wf hv hlim hw ?_ fun s hs hdot hdir' => ?_
  · rintro s ⟨rfl, hlisted⟩
    refine ⟨fun hdot => ?_, ?_, ?_⟩
    · apply to83_head name
      rw [newEntry_zero name g, ← hent 0 (by omega), hdot]
    · dsimp only
      rw [if_pos ⟨rfl, hlisted⟩, hnew.first_eq, newEntry_first name (by simp only [fatEoc] at hnum; omega)]
      refine ⟨⟨_, ?_, rfl, rfl⟩, fun c hc => ?_, by simp⟩
      · rw [putSlot, fatVal_update hv h.first.upper htd]
        exact h.mark
      · rw [mem_singleton.mp hc]
        exact ⟨h.first.lower, hg⟩
    · rw [size_congr hent, newEntry_size]
      exact Nat.zero_le _
  obtain ⟨o', m', -, ho', hmem'⟩ := hs.owner
  have hne : s ≠ t := by
    rintro rfl
    exact dead_of_free ht hs
  have hsize : (entryAt (putSlot d₁ t (newEntry name g)) s).size = (entryAt d s).size :=
    size_congr fun k hk => by
      rw [entryAt_putSlot hk, if_neg hne, entryAt, entryAt,
        h.data s.1 (slot_data hv hlim ho'.2 (mem_dirSlots_of_live hmem'))]
  rw [hsize, if_neg fun hx => hne (Owner.entry.inj hx.1)]
  rcases hw.size s hs hdot hdir' with h0 | ⟨l, hl, hle⟩
  · exact .inl h0
  · exact .inr ⟨l, hl, by rwa [append_nil]⟩

end

/-! ## The program -/

/-- The slot of a name in the directory with this first cluster. -/
def lookupSlot (v : Vol) (d : Disk) (dir : Nat) (name : List UInt8) : Option Loc :=
  search (lookupVerdict (to83 name)) d (dirSlots v (chainFrom v d v.entries dir))

/-- The directory a path leads to on the disk, by the first twelve bytes of each name. -/
def walkNames (v : Vol) (d : Disk) : Nat → List (List UInt8) → Option Nat
  | dir, [] => some dir
  | dir, name :: names =>
    match lookupSlot v d dir (name.take 12) with
    | none => none
    | some s =>
      if (entryAt d s).attr &&& 0x10 = 0 then none else walkNames v d (entryAt d s).first names

lemma walkNames_cons {d : Disk} {c dir : Nat} {names : List (List UInt8)}
    (h : walkNames v d c (name :: names) = some dir) :
    ∃ s, lookupSlot v d c (name.take 12) = some s ∧ (entryAt d s).IsDir ∧
      walkNames v d (entryAt d s).first names = some dir := by
  rw [walkNames] at h
  cases hs : lookupSlot v d c (name.take 12) with
  | none =>
    rw [hs] at h
    cases h
  | some s =>
    rw [hs] at h
    dsimp only at h
    split at h
    · cases h
    · exact ⟨s, rfl, by assumption, h⟩

/-- The slot of the entry a path leads to: every name but the last is one of a directory. -/
def pathSlot (v : Vol) (d : Disk) : Nat → List (List UInt8) → Option Loc
  | _, [] => none
  | dir, [name] => lookupSlot v d dir (name.take 12)
  | dir, name :: name' :: names =>
    match lookupSlot v d dir (name.take 12) with
    | none => none
    | some s =>
      if (entryAt d s).attr &&& 0x10 = 0 then none
      else pathSlot v d (entryAt d s).first (name' :: names)

section
variable (hv : v.Shaped) {lim : Nat} (hlim : lim ≤ v.entries) {d : Disk} {Fails : Transfer → Prop}
  (hread : TableReads v Fails)
include hv hlim hread

/-- A lookup in a directory of the volume. -/
lemma wp_lookupSlot (hw : Wf v d lim) (hdir : o.IsDir d) (hex : o.Exists v d lim) (name : List UInt8) :
    (dirLookup v (o.first v d) (to83 name)).Wp Fails d fun r d' => d' = d ∧
      ((r = none ∧ ∃ n, Fails (.read n)) ∨ r = (lookupSlot v d (o.first v d) name).map fun s =>
        ⟨(entryAt d s).first, (entryAt d s).size, (entryAt d s).attr⟩) := by
  obtain ⟨m, ho⟩ := hw.dir_owns hdir hex
  rw [lookupSlot, chainFrom_eq hv hlim ho.2]
  exact wp_dirLookup hv hread (ho.2.mono hlim) _

omit hread in
/-- One name on the way: an entry of a directory of the volume. -/
lemma lookupSlot_owner (hw : Wf v d lim) (hdir : o.IsDir d) (hex : o.Exists v d lim)
    (hs : lookupSlot v d (o.first v d) name = some s) :
    ∃ mp, Owns v d lim o mp ∧ search (lookupVerdict (to83 name)) d (dirSlots v mp) = some s ∧
      (Owner.entry s).Exists v d lim := by
  obtain ⟨mp, ho⟩ := hw.dir_owns hdir hex
  rw [lookupSlot, chainFrom_eq hv hlim ho.2] at hs
  obtain ⟨hlive, hname⟩ := live_of_lookup hs
  refine ⟨mp, ho, hs, live_of_owner hdir ho hlive, fun hdot => ?_⟩
  apply to83_head name
  rw [← hname, head_name, hdot]

/-- The walk through directories follows the entries of their names and ends at a directory of the
volume. -/
lemma wp_findDir (hw : Wf v d lim) (names : List (List UInt8)) : ∀ (o : Owner), o.IsDir d →
    o.Exists v d lim → (findDir v (o.first v d) names).Wp Fails d fun r d' => d' = d ∧
      (r = walkNames v d (o.first v d) names ∨ r = none ∧ ∃ n, Fails (.read n)) ∧
      ∀ dir ∈ r, ∃ o' : Owner, o'.IsDir d ∧ o'.Exists v d lim ∧ o'.first v d = dir := by
  induction names with
  | nil =>
    intro o hdir hex
    refine ⟨rfl, .inl rfl, ?_⟩
    rintro _ ⟨⟩
    exact ⟨o, hdir, hex, rfl⟩
  | cons name names ih =>
    intro o hdir hex
    rw [findDir, BlockProg.wp_bind]
    refine (wp_lookupSlot hv hlim hread hw hdir hex _).mono fun r d' ⟨hd, hr⟩ => ?_
    subst hd
    rw [walkNames]
    rcases hr with ⟨rfl, hfail⟩ | rfl
    · exact ⟨rfl, .inr ⟨rfl, hfail⟩, nofun⟩
    cases hs : lookupSlot v d' (o.first v d') (name.take 12) with
    | none => exact ⟨rfl, .inl rfl, nofun⟩
    | some s =>
      show (if _ then _ else _ : Io (Option Nat)).Wp _ _ _
      dsimp only
      split_ifs with hattr
      · exact ⟨rfl, .inl rfl, nofun⟩
      · obtain ⟨-, -, -, hex⟩ := lookupSlot_owner hv hlim hw hdir hex hs
        exact ih (.entry s) hattr hex

omit hread in
/-- `fat32_find` comes to the slot of the path. -/
lemma wp_fat32Find (hw : Wf v d lim) (names : List (List UInt8)) : ∀ (o : Owner), o.IsDir d →
    o.Exists v d lim → (fat32Find v (o.first v d) names).Wp (fun _ => False) d fun r _ =>
      r = (pathSlot v d (o.first v d) names).map fun s => ((entryAt d s).first, (entryAt d s).size) := by
  induction names with
  | nil => exact fun _ _ _ => rfl
  | cons name names ih =>
    intro o hdir hex
    have hlook : BlockProg.Wp (fun _ => False) _ d _ :=
      wp_lookupSlot hv hlim (fun _ _ h => h) hw hdir hex (name.take 12)
    cases names with
    | nil =>
      rw [fat32Find, BlockProg.wp_bind, pathSlot]
      refine hlook.mono fun r d' ⟨hd, hr⟩ => ?_
      obtain rfl := hr.resolve_left fun h => h.2.elim fun _ => id
      cases lookupSlot v d (o.first v d) (name.take 12) <;> rfl
    | cons name' names =>
      rw [fat32Find, BlockProg.wp_bind, pathSlot]
      refine hlook.mono fun r d' ⟨hd, hr⟩ => ?_
      subst hd
      obtain rfl := hr.resolve_left fun h => h.2.elim fun _ => id
      cases hs : lookupSlot v d' (o.first v d') (name.take 12) with
      | none => rfl
      | some s =>
        show (if _ then _ else _ : Io (Option (Nat × Nat))).Wp _ _ _
        dsimp only
        split_ifs with hattr
        · rfl
        · obtain ⟨-, -, -, hex⟩ := lookupSlot_owner hv hlim hw hdir hex hs
          exact ih (.entry s) hattr hex

omit hread in
/-- **`fat32_truncate_path`** rewrites the size in the entry that `fat32_find` comes to, and nothing
else, exactly if the path has no directory part and no name beyond twelve bytes, and the first entry
with that name, volume labels and entries behind the end mark included, is that one or has the size
already, as it has. -/
theorem truncatePath_right_iff (hw : Wf v d lim) {path : List UInt8} {e : Loc} (size : Nat)
    (hfind : pathSlot v d v.root (components path) = some e) :
    ((fat32Find v v.root (components path)).exec d).1 =
        some ((entryAt d e).first, (entryAt d e).size) ∧
      ((fat32TruncatePath v path size).exec d = (.ok, putSize d e size) ↔
        (splitLast path).1 = none ∧ (splitLast path).2.length ≤ 12 ∧
          ∃ s, search (sizeVerdict (to83 (splitLast path).2)) d
            (dirSlots v (chainFrom v d v.entries v.root)) = some s ∧
            putSize d s size = putSize d e size) := by
  have hroot : (Owner.root).IsDir d := trivial
  refine ⟨?_, ?_⟩
  · have hwp := BlockProg.wp_exec.mp (wp_fat32Find hv hlim hw (components path) .root hroot trivial)
    rw [Owner.first, hfind] at hwp
    exact hwp
  by_cases hlen : 13 ≤ (splitLast path).2.length
  · have hprog : fat32TruncatePath v path size = .ret .err := by
      rw [fat32TruncatePath]
      rcases hs : splitLast path with ⟨_ | dir, name⟩
      · rw [hs] at hlen
        exact if_pos hlen
      · rw [hs] at hlen
        exact if_pos (.inr hlen)
    rw [hprog]
    exact iff_of_false (fun heq => by cases congrArg Prod.fst heq) fun h => by omega
  obtain ⟨l, ho⟩ := hw.dir_owns hroot trivial
  have hl : ChainAt v d lim v.root l := ho.2
  have hres := BlockProg.wp_exec.mp (wp_fat32TruncatePath hv (fun _ _ h => h) (hl.mono hlim) path size)
  rw [chainFrom_eq hv hlim hl]
  generalize (fat32TruncatePath v path size).exec d = r at hres
  obtain ⟨o, d'⟩ := r
  cases hres with
  | kept hr h =>
    refine iff_of_false (fun heq => hr (congrArg Prod.fst heq)) ?_
    rintro ⟨hnone, -, s, hs, -⟩
    rcases h with h | h | h | ⟨_, h⟩
    · exact h hnone
    · exact hlen h
    · cases hs.symm.trans h
    · exact h
  | @put s _ hnone h hr =>
    obtain rfl := hr.resolve_right fun h => h.elim fun _ => id
    constructor
    · exact fun heq => ⟨hnone, by omega, s, h, congrArg Prod.snd heq⟩
    · rintro ⟨-, -, s', hs', heq⟩
      obtain rfl := Option.mem_unique h hs'
      exact congrArg (Prod.mk _) heq

/-- What `fat32_create` ends with: an entry in the first unused slot of the directory the path names,
with a cluster of its own; a cluster taken and lost, because the directory has no unused slot; or
nothing, because there is no such directory or no free cluster. A refused transfer may be behind each
failure. -/
inductive Created (v : Vol) (Fails : Transfer → Prop) (lim : Nat) (d : Disk) (path : List UInt8) :
    Bool → Disk → Prop
  | added {ok : Bool} {d₁ : Disk} {g : Nat} {o : Owner} {m : List Nat} {t : Loc}
      (h : Marked v d d₁ g []) (hdir : o.IsDir d) (ho : Owns v d lim o m)
      (hwalk : walkNames v d v.root (components ((splitLast path).1.getD [])) = some (o.first v d))
      (ht : search freeVerdict d (dirSlots v m) = some t) (hok : ok = true ∨ ∃ t, Fails t) :
      Created v Fails lim d path ok (putSlot d₁ t (newEntry ((splitLast path).2.take 12) g))
  | lost {d₁ : Disk} {g : Nat} (h : Marked v d d₁ g [])
      (hwhy : (∃ dir, walkNames v d v.root (components ((splitLast path).1.getD [])) = some dir ∧
        search freeVerdict d (dirSlots v (chainFrom v d v.entries dir)) = none) ∨ ∃ t, Fails t) :
      Created v Fails lim d path false d₁
  | none (hwhy : walkNames v d v.root (components ((splitLast path).1.getD [])) = Option.none ∨
        (∀ c, 2 ≤ c → c < v.entries → fatVal v d c ≠ 0) ∨ ∃ t, Fails t) :
      Created v Fails lim d path false d

lemma wp_fat32Create (hw : Wf v d lim) (path : List UInt8) :
    (fat32Create v path).Wp Fails d (Created v Fails lim d path) := by
  rw [fat32Create, BlockProg.wp_bind]
  refine (wp_findDir hv hlim hread hw _ .root trivial trivial).mono fun r d' ⟨hd, hwalk, hr⟩ => ?_
  subst hd
  cases r with
  | none =>
    refine .none (hwalk.imp Eq.symm fun h => ?_)
    obtain ⟨-, n, hf⟩ := h
    exact .inr ⟨_, hf⟩
  | some dir =>
    obtain ⟨o, hdir, hex, rfl⟩ := hr dir rfl
    obtain ⟨m, ho⟩ := hw.dir_owns hdir hex
    have hwalk' := hwalk.resolve_right fun h => nomatch h.1
    rw [BlockProg.wp_bind]
    refine (wp_fatAllocCluster hv).mono fun g d₁ halloc => ?_
    cases halloc with
    | none hf => exact .none (.inr hf.symm)
    | refused c h hf => exact .lost (h.marked hv) (.inr hf)
    | taken h =>
      have hmark := h.marked hv
      have hne : g ≠ 0 := by
        have := h.lower
        omega
      rw [if_neg hne]
      have hm : ChainAt v (setFat v d' g fatMark) v.entries (o.first v d') m :=
        (hmark.chain hlim ho.2).mono hlim
      have hsearch : search freeVerdict (setFat v d' g fatMark) (dirSlots v m) =
          search freeVerdict d' (dirSlots v m) := search_congr fun s hs => by
        rw [entryAt, entryAt, hmark.data s.1 (slot_data hv hlim ho.2 hs)]
      refine (wp_dirAddEntry hv hread hm _).mono fun ok d2 hadd => ?_
      rw [hsearch] at hadd
      cases hadd with
      | kept h =>
        refine .lost hmark (h.imp_left fun h => ⟨_, hwalk'.symm, ?_⟩)
        rw [chainFrom_eq hv hlim ho.2]
        exact h
      | put ht hr => exact .added hmark hdir ho hwalk'.symm ht hr

end

theorem truncatePath_right_A :
    (fat32TruncatePath smallVol [65] 0).exec twoClusters = (.ok, putSize twoClusters (2, 0) 0) :=
  (truncatePath_right_iff smallVol_shaped le_rfl twoClusters_wf 0
    (show pathSlot smallVol twoClusters smallVol.root (components [65]) = some (2, 0) by
      decide +kernel)).2.mpr
    ⟨by decide, by decide, (2, 0), by decide +kernel, rfl⟩

/-- The lookup of `A/` finds the file `A`; `fat32_truncate_path` hands `fat32_find` a null pointer. -/
theorem truncatePath_faults : Wf smallVol twoClusters 128 ∧
    pathSlot smallVol twoClusters smallVol.root (components [65, 47]) = some (2, 0) ∧
    (entryAt twoClusters (2, 0)).attr &&& 0x10 = 0 ∧
    ((fat32TruncatePath smallVol [65, 47] 0).exec twoClusters).1 = .fault :=
  ⟨twoClusters_wf, by decide +kernel, by decide +kernel, by decide +kernel⟩

end FermiOs.Fat32
