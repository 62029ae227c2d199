import FermiOs.Fs.Fat32.Data

/-!
# Directories

A directory is the sequence of 32-byte slots in the sectors of its chain. The walk that `dir_lookup`,
`dir_add_entry` and `fat32_truncate_path` share is a search through that sequence; what they write is
one slot, or the size field of one.
-/

namespace FermiOs.Fat32
open Library List Function
variable {first : Nat} {l : List Nat} {α : Type}

/-- A slot: a sector and an index in it. -/
abbrev Loc := Nat × Nat

/-- The entry in a slot. -/
def entryAt (d : Disk) (s : Loc) : DirEntry := slotOf (d s.1) s.2

/-- The slots of sector `n`. -/
def sectorSlots (n : Nat) : List Loc := (range 16).map fun i => (n, i)

/-- The slots of a directory, in order. -/
def dirSlots (v : Vol) (l : List Nat) : List Loc :=
  l.flatMap fun c => (range v.spc).flatMap fun s => sectorSlots (clusterToSector v c + s)

/-- The slot a walk with verdict `f` ends at. -/
def search (f : DirEntry → Verdict) (d : Disk) : List Loc → Option Loc
  | [] => none
  | s :: slots =>
    match f (entryAt d s) with
    | .skip => search f d slots
    | .stop => none
    | .hit => some s

/-! ## Walks -/

section
variable {f : DirEntry → Verdict} {d : Disk} {slots slots' : List Loc} {s : Loc}

lemma search_append_of_skip (h : ∀ s ∈ slots, f (entryAt d s) = .skip) :
    search f d (slots ++ slots') = search f d slots' := by
  induction slots with
  | nil => rfl
  | cons s slots ih =>
    rw [cons_append, search, h s mem_cons_self]
    exact ih fun t ht => h t (mem_cons_of_mem _ ht)

/-- The slot found is the first one that is not passed over. -/
lemma search_eq_some : search f d slots = some s ↔
    ∃ before after, slots = before ++ s :: after ∧ (∀ t ∈ before, f (entryAt d t) = .skip) ∧
      f (entryAt d s) = .hit := by
  constructor
  · intro h
    induction slots with
    | nil => cases h
    | cons t slots ih =>
      rw [search] at h
      cases hf : f (entryAt d t) with
      | skip =>
        rw [hf] at h
        obtain ⟨before, after, rfl, hskip, hhit⟩ := ih h
        refine ⟨t :: before, after, rfl, fun u hu => ?_, hhit⟩
        rcases mem_cons.mp hu with rfl | hu
        · exact hf
        · exact hskip u hu
      | stop =>
        rw [hf] at h
        cases h
      | hit =>
        rw [hf] at h
        cases h
        exact ⟨[], slots, rfl, forall_mem_nil _, hf⟩
  · rintro ⟨before, after, rfl, hskip, hhit⟩
    rw [search_append_of_skip hskip, search, hhit]

lemma range_succ_map (f : Nat → α) (i n : Nat) : (range (n + 1)).map (fun j => f (i + j)) =
      f i :: (range n).map fun j => f (i + 1 + j) := by
  rw [range_succ_eq_map, map_cons, map_map]
  simp only [Function.comp_def, add_zero, Nat.succ_eq_add_one, add_assoc, add_comm 1]

lemma range_succ_flatMap (f : Nat → List α) (i n : Nat) :
    (range (n + 1)).flatMap (fun j => f (i + j)) = f i ++ (range n).flatMap fun j => f (i + 1 + j) := by
  rw [flatMap_def, flatMap_def, range_succ_map f, flatten_cons]

lemma scanFrom_eq (b : Sector) (n : Nat) (hb : d n = b) (m : Nat) : ∀ i, ∀ slots' : List Loc,
    search f d ((range m).map (fun j => (n, i + j)) ++ slots') =
      match scanFrom f b m i with
      | .more => search f d slots'
      | .stop => none
      | .hit j => some (n, j) := by
  induction m with
  | zero => exact fun i slots' => rfl
  | succ m ih =>
    intro i slots'
    have hentry : entryAt d (n, i) = slotOf b i := by rw [entryAt, hb]
    rw [range_succ_map (fun j => (n, j)), cons_append, search, scanFrom, hentry]
    cases f (slotOf b i) with
    | skip => exact ih (i + 1) slots'
    | stop => rfl
    | hit => rfl

lemma search_sectorSlots (n : Nat) (slots' : List Loc) : search f d (sectorSlots n ++ slots') =
      match scanFrom f (d n) 16 0 with
      | .more => search f d slots'
      | .stop => none
      | .hit j => some (n, j) := by
  have h := scanFrom_eq (f := f) (d n) n rfl 16 0 slots'
  exact h

end

lemma mem_dirSlots {v : Vol} {s : Loc} :
    s ∈ dirSlots v l ↔ (∃ c ∈ l, InCluster v c s.1) ∧ s.2 < 16 := by
  simp only [dirSlots, sectorSlots, InCluster, mem_flatMap, mem_map, mem_range]
  constructor
  · rintro ⟨c, hc, n, hn, i, hi, rfl⟩
    exact ⟨⟨c, hc, by omega, by omega⟩, hi⟩
  · rintro ⟨⟨c, hc, hlo, hhi⟩, hi⟩
    refine ⟨c, hc, s.1 - clusterToSector v c, by omega, s.2, hi, ?_⟩
    rw [Nat.add_sub_cancel' hlo]

/-! ## Lookups write nothing -/

lemma readOnly_walkSectors (f : DirEntry → Verdict) (base n : Nat) :
    ∀ s, (walkSectors f base n s).ReadOnly := by
  induction n with
  | zero => exact fun s => trivial
  | succ n ih =>
    intro s b
    cases b with
    | none => trivial
    | some b =>
      dsimp only
      cases scanFrom f b 16 0 with
      | more => exact ih (s + 1)
      | stop => trivial
      | hit i => trivial

lemma readOnly_fatNext (v : Vol) (c : Nat) : (fatNext v c).ReadOnly := by
  intro b
  cases b with
  | none => trivial
  | some b => trivial

lemma readOnly_walkDir (v : Vol) (f : DirEntry → Verdict) (n : Nat) :
    ∀ c, (walkDir v f n c).ReadOnly := by
  induction n with
  | zero => exact fun c => trivial
  | succ n ih =>
    intro c
    rw [walkDir]
    split
    · trivial
    · refine (readOnly_walkSectors f _ _ 0).bind fun r => ?_
      cases r with
      | none => exact (readOnly_fatNext v c).bind ih
      | some r => trivial

lemma readOnly_dirLookup (v : Vol) (dir : Nat) (target : List UInt8) :
    (dirLookup v dir target).ReadOnly := by
  refine (readOnly_walkDir v _ _ dir).bind fun r => ?_
  cases r <;> trivial

lemma readOnly_fat32Find (v : Vol) (names : List (List UInt8)) :
    ∀ dir, (fat32Find v dir names).ReadOnly := by
  induction names with
  | nil => exact fun dir => trivial
  | cons name names ih =>
    intro dir
    cases names with
    | nil =>
      refine (readOnly_dirLookup v dir _).bind fun r => ?_
      cases r <;> trivial
    | cons name' names =>
      refine (readOnly_dirLookup v dir _).bind fun r => ?_
      cases r with
      | none => trivial
      | some r =>
        dsimp only
        split
        · trivial
        · exact ih r.first

/-- The outcome of a walk is that of the search, unless a sector could not be read. -/
def Walk.Agrees (Fails : Transfer → Prop) (d : Disk) (o : Option Loc) : Walk → Prop
  | .ended => o = none
  | .failed => ∃ n, Fails (.read n)
  | .hit n i b => o = some (n, i) ∧ b = d n

section
variable {v : Vol} (hv : v.Shaped) {Fails : Transfer → Prop} {f : DirEntry → Verdict} {d : Disk}
include hv

lemma wp_walkSectors {c : Nat} (h2 : 2 ≤ c) (hc : c < v.entries) (n : Nat) : ∀ s, s + n = v.spc →
    (walkSectors f (clusterToSector v c) n s).Wp Fails d fun r d' => d' = d ∧ ∀ slots',
      let o := search f d ((range n).flatMap
        (fun j => sectorSlots (clusterToSector v c + (s + j))) ++ slots')
      match r with
      | none => o = search f d slots'
      | some w => w.Agrees Fails d o := by
  induction n with
  | zero => exact fun s _ => ⟨rfl, fun slots' => rfl⟩
  | succ n ih =>
    intro s hs
    have hin : InCluster v c (clusterToSector v c + s) := by
      simp only [InCluster]
      omega
    have hsec : u32 (clusterToSector v c + s) = clusterToSector v c + s :=
      Nat.mod_eq_of_lt (hin.bounds hv h2 hc).2
    rw [walkSectors, hsec]
    refine ⟨?_, fun hf => ⟨rfl, fun _ => ⟨_, hf⟩⟩⟩
    rw [range_succ_flatMap fun j => sectorSlots (clusterToSector v c + j)]
    dsimp only
    cases hscan : scanFrom f (d (clusterToSector v c + s)) 16 0 with
    | more =>
      refine (ih (s + 1) (by omega)).mono fun r d' h => ⟨h.1, fun slots' => ?_⟩
      rw [append_assoc, search_sectorSlots, hscan]
      exact h.2 slots'
    | stop =>
      refine ⟨rfl, fun slots' => ?_⟩
      rw [append_assoc, search_sectorSlots, hscan]
      rfl
    | hit i =>
      refine ⟨rfl, fun slots' => ?_⟩
      rw [append_assoc, search_sectorSlots, hscan]
      exact ⟨rfl, rfl⟩

lemma ChainAt.length_le {lim : Nat} (hl : ChainAt v d lim first l) (hlim : lim ≤ v.entries) :
    l.length ≤ v.entries := by
  have hsub : l ⊆ List.range v.entries := fun c hc =>
    mem_range.mpr (lt_of_lt_of_le (hl.range c hc).2 hlim)
  have h := ((hl.nodup hv hlim).subperm hsub).length_le
  rwa [length_range] at h

variable (hread : TableReads v Fails) (hl : ChainAt v d v.entries first l)
include hread hl

lemma wp_walkLoop (fuel : Nat) : ∀ (pre post : List Nat) (c : Nat),
    Standing l pre post c → post.length < fuel →
    (walkDir v f fuel c).Wp Fails d fun r d' => d' = d ∧
      r.Agrees Fails d (search f d (dirSlots v post)) := by
  induction fuel with
  | zero => exact fun _ _ _ _ h => absurd h (Nat.not_lt_zero _)
  | succ fuel ih =>
    intro pre post c hat hfuel
    rw [walkDir]
    cases post with
    | nil =>
      rw [if_pos (hat.last rfl)]
      exact ⟨rfl, rfl⟩
    | cons x xs =>
      obtain rfl : c = x := hat.here x rfl
      have hmem : c ∈ l := by simp [hat.split]
      have hrange := hl.range c hmem
      rw [if_neg (hl.not_end hv le_rfl c hmem), BlockProg.wp_bind]
      refine (wp_walkSectors hv hrange.1 hrange.2 v.spc 0 (zero_add _)).mono
        fun r d' ⟨hd, hr⟩ => ?_
      subst hd
      have hr' := hr (dirSlots v xs)
      simp only [zero_add] at hr'
      cases r with
      | some w => exact ⟨rfl, hr'⟩
      | none =>
        rw [BlockProg.wp_bind]
        refine wp_fatNext ?_ fun hf => absurd hf (hread c hrange.2)
        have hslots : search f d' (dirSlots v (c :: xs)) = search f d' (dirSlots v xs) := hr'
        rw [hslots]
        exact ih (pre ++ [c]) xs _ (hl.standing_next hat) (by simpa using hfuel)

/-- **Walking a directory.** With a table that can be read, the walk searches the slots of the chain. -/
lemma wp_walkDir : (walkDir v f (v.entries + 1) first).Wp Fails d fun r d' => d' = d ∧
      r.Agrees Fails d (search f d (dirSlots v l)) := by
  have hlen := hl.length_le hv le_rfl
  exact wp_walkLoop hv hread hl _ [] l first hl.standing (by omega)

/-- The outcome of `dir_lookup` in terms of the search. -/
lemma wp_dirLookup (target : List UInt8) : (dirLookup v first target).Wp Fails d fun r d' => d' = d ∧
      ((r = none ∧ ∃ n, Fails (.read n)) ∨
        r = (search (lookupVerdict target) d (dirSlots v l)).map fun s =>
          ⟨(entryAt d s).first, (entryAt d s).size, (entryAt d s).attr⟩) := by
  rw [dirLookup, BlockProg.wp_bind]
  refine (wp_walkDir hv hread hl).mono fun r d' ⟨hd, hr⟩ => ?_
  subst hd
  cases r with
  | ended => exact ⟨rfl, .inr (by rw [show search _ _ _ = none from hr]; rfl)⟩
  | failed => exact ⟨rfl, .inl ⟨rfl, hr⟩⟩
  | hit n i b =>
    obtain ⟨hs, rfl⟩ := hr
    exact ⟨rfl, .inr (by rw [hs]; rfl)⟩

end

/-! ## Writing a slot -/

/-- The disk after `dir_add_entry`. -/
def putSlot (d : Disk) (s : Loc) (e : DirEntry) : Disk :=
  update d s.1 (patch (d s.1) (32 * s.2) ((range 32).map e) 32)

/-- The disk after the size field of an entry was rewritten. -/
def putSize (d : Disk) (s : Loc) (size : Nat) : Disk :=
  update d s.1 (setLe32 (d s.1) (32 * s.2 + 28) size)

section
variable {d : Disk} {s t : Loc} {e : DirEntry} {size k : Nat}

lemma entryAt_putSlot (hk : k < 32) :
    entryAt (putSlot d s e) t k = if t = s then e k else entryAt d t k := by
  obtain ⟨n, i⟩ := s
  obtain ⟨m, j⟩ := t
  simp only [entryAt, putSlot, slotOf, Prod.mk.injEq]
  by_cases hn : m = n
  · subst hn
    rw [update_self, patch]
    by_cases hi : j = i
    · subst hi
      simp [getD_eq_getElem?_getD, hk]
    · rw [if_neg (by omega), if_neg (fun h => hi h.2)]
  · rw [update_of_ne hn, if_neg (fun h => hn h.1)]

lemma entryAt_putSize (hk : k < 32) : entryAt (putSize d s size) t k =
      if t = s ∧ 28 ≤ k then UInt8.ofNat (size / 256 ^ (k - 28)) else entryAt d t k := by
  obtain ⟨n, i⟩ := s
  obtain ⟨m, j⟩ := t
  simp only [entryAt, putSize, slotOf, Prod.mk.injEq]
  by_cases hn : m = n
  · subst hn
    rw [update_self, setLe32]
    by_cases hi : j = i ∧ 28 ≤ k
    · obtain ⟨rfl, hk'⟩ := hi
      have hsub : 32 * j + k - (32 * j + 28) = k - 28 := by omega
      rw [if_pos (by omega), if_pos ⟨⟨rfl, rfl⟩, hk'⟩, hsub]
    · rw [if_neg (by omega), if_neg (by simpa using hi)]
  · rw [update_of_ne hn, if_neg (fun h => hn h.1.1)]

/-- All of two entries but the size is the same. -/
def SameEntry (e e' : DirEntry) : Prop := ∀ k, k < 28 → e' k = e k

lemma sameEntry_putSize (d : Disk) (s : Loc) (size : Nat) (t : Loc) :
    SameEntry (entryAt d t) (entryAt (putSize d s size) t) := by
  intro k hk
  rw [entryAt_putSize (by omega), if_neg (by omega)]

lemma entryAt_putSize_of_ne (h : t ≠ s) (hk : k < 32) :
    entryAt (putSize d s size) t k = entryAt d t k := by
  rw [entryAt_putSize hk, if_neg fun hc => h hc.1]

lemma size_congr {e e' : DirEntry} (h : ∀ k, k < 32 → e' k = e k) : e'.size = e.size := by
  simp only [DirEntry.size, le32, le16]
  rw [h 28 (by omega), h (28 + 1) (by omega), h (28 + 2) (by omega), h (28 + 2 + 1) (by omega)]

lemma size_putSize (d : Disk) (s : Loc) (size : Nat) :
    (entryAt (putSize d s size) s).size = u32 size := by
  have h : ∀ k, 28 ≤ k → k < 32 → entryAt (putSize d s size) s k = UInt8.ofNat (size / 256 ^ (k - 28)) :=
    fun k hk hk' => by rw [entryAt_putSize hk', if_pos ⟨rfl, hk⟩]
  simp only [DirEntry.size, le32, le16]
  rw [h 28 (by omega) (by omega), h (28 + 1) (by omega) (by omega), h (28 + 2) (by omega) (by omega),
    h (28 + 2 + 1) (by omega) (by omega)]
  simp only [toNat_ofNat, u32]
  omega

namespace SameEntry
variable {e' : DirEntry} (h : SameEntry e e')
include h

lemma name_eq : e'.name = e.name := map_congr_left fun k hk => h k (by
  rw [mem_range] at hk
  omega)

lemma attr_eq : e'.attr = e.attr := h 11 (by omega)

lemma first_eq : e'.first = e.first := by
  simp only [DirEntry.first, le16]
  rw [h 20 (by omega), h (20 + 1) (by omega), h 26 (by omega), h (26 + 1) (by omega)]

end SameEntry

end

section
variable {v : Vol} (hv : v.Shaped) {Fails : Transfer → Prop} {d : Disk}
include hv

/-- What a walk that rewrites the slot it finds ends with: nothing happened, because there is no such
slot or a transfer was refused; or the slot is rewritten, reported unless that was refused. -/
inductive Rewritten (Fails : Transfer → Prop) (o : Option Loc) (d : Disk) (put : Loc → Disk) :
    Bool → Disk → Prop
  | kept (h : o = none ∨ ∃ t, Fails t) : Rewritten Fails o d put false d
  | put {s : Loc} {r : Bool} (h : o = some s) (hr : r = true ∨ ∃ t, Fails t) :
      Rewritten Fails o d put r (put s)

variable (hread : TableReads v Fails)
include hread

/-- `dir_add_entry` writes the entry in the first free slot. -/
lemma wp_dirAddEntry (hl : ChainAt v d v.entries first l) (e : DirEntry) :
    (dirAddEntry v first e).Wp Fails d
      (Rewritten Fails (search freeVerdict d (dirSlots v l)) d fun s => putSlot d s e) := by
  rw [dirAddEntry, BlockProg.wp_bind]
  refine (wp_walkDir hv hread hl).mono fun r d' ⟨hd, hr⟩ => ?_
  subst hd
  cases r with
  | ended => exact .kept (.inl hr)
  | failed =>
    obtain ⟨n, hf⟩ := hr
    exact .kept (.inr ⟨_, hf⟩)
  | hit n i b =>
    obtain ⟨hs, rfl⟩ := hr
    exact ⟨.put hs (.inl rfl), fun hf => ⟨.kept (.inr ⟨_, hf⟩), .put hs (.inr ⟨_, hf⟩)⟩⟩

lemma wp_dirSetSize (hl : ChainAt v d v.entries first l) (target : List UInt8) (size : Nat) :
    (dirSetSize v first target size).Wp Fails d
      (Rewritten Fails (search (sizeVerdict target) d (dirSlots v l)) d fun s => putSize d s size) := by
  rw [dirSetSize, BlockProg.wp_bind]
  refine (wp_walkDir hv hread hl).mono fun r d' ⟨hd, hr⟩ => ?_
  subst hd
  cases r with
  | ended => exact .kept (.inl hr)
  | failed =>
    obtain ⟨n, hf⟩ := hr
    exact .kept (.inr ⟨_, hf⟩)
  | hit n i b =>
    obtain ⟨hs, rfl⟩ := hr
    exact ⟨.put hs (.inl rfl), fun hf => ⟨.kept (.inr ⟨_, hf⟩), .put hs (.inr ⟨_, hf⟩)⟩⟩

/-- What `fat32_truncate_path` ends with: nothing happened, because the path has a directory part or
too long a name or names no entry, or because a transfer was refused; or the size in an entry of the
root directory is rewritten. -/
inductive Resized (v : Vol) (Fails : Transfer → Prop) (l : List Nat) (path : List UInt8) (size : Nat)
    (d : Disk) : Outcome → Disk → Prop
  | kept {r : Outcome} (hr : r ≠ .ok)
      (h : (splitLast path).1 ≠ none ∨ 12 < (splitLast path).2.length ∨
        search (sizeVerdict (to83 (splitLast path).2)) d (dirSlots v l) = none ∨ ∃ t, Fails t) :
      Resized v Fails l path size d r d
  | put {s : Loc} {r : Outcome} (hroot : (splitLast path).1 = none)
      (h : search (sizeVerdict (to83 (splitLast path).2)) d (dirSlots v l) = some s)
      (hr : r = .ok ∨ ∃ t, Fails t) : Resized v Fails l path size d r (putSize d s size)

lemma wp_fat32TruncatePath (hl : ChainAt v d v.entries v.root l) (path : List UInt8) (size : Nat) :
    (fat32TruncatePath v path size).Wp Fails d (Resized v Fails l path size d) := by
  rw [fat32TruncatePath]
  split
  · rename_i name hsplit
    split
    · refine .kept Outcome.noConfusion (.inr (.inl ?_))
      rw [hsplit]
      assumption
    rw [BlockProg.wp_bind]
    refine (wp_dirSetSize hv hread hl (to83 name) size).mono fun r d' h => ?_
    cases h with
    | kept h =>
      refine .kept Outcome.noConfusion (.inr (.inr ?_))
      rw [hsplit]
      exact h
    | put h hr =>
      refine .put (by rw [hsplit]) (by rw [hsplit]; exact h) (hr.imp_left fun hr => ?_)
      rw [hr, if_pos rfl]
  rename_i dir name hsplit
  have hdir : (splitLast path).1 ≠ none := by rw [hsplit]; exact Option.some_ne_none dir
  split
  · exact .kept Outcome.noConfusion (.inl hdir)
  rw [BlockProg.wp_bind]
  refine (readOnly_fat32Find v _ _).wp.mono fun r d' hd => ?_
  subst hd
  cases r with
  | none => exact .kept Outcome.noConfusion (.inl hdir)
  | some r => exact .kept Outcome.noConfusion (.inl hdir)

end
end FermiOs.Fat32
