import FermiOs.Mm.Kernel

/-!
# User page tables

`mm/mmu/mmu.c`: the allocating walk, mapping, unmapping and re-protecting of page ranges, and the TLB
maintenance that goes with the latter two.

Each operation is described by two facts. The frame fact says what it leaves alone and that it keeps
the ownership ledger (`TableStep`, `MmuStep`). The effect fact gives the hardware's view afterwards:
`mmuMapUserRange_leaf`, `mmuUnmapUserRange_leaf` and `mmuProtectUserRange_leaf` say which leaf every
address has, in terms of the leaf it had.
-/

namespace FermiOs
open Library List Function
variable {k k' : Kernel} {l0 phys : Nat}

/-- Two addresses on one page. -/
def SamePage (a b : Nat) : Prop := a / 4096 = b / 4096
deriving Decidable

/-- `va` lies on one of `pages` pages from `base`. -/
def InPages (base pages va : Nat) : Prop := base / 4096 ≤ va / 4096 ∧ va / 4096 < base / 4096 + pages
deriving Decidable

lemma not_inPages_zero (va a : Nat) : ¬ InPages va 0 a := by
  simp only [InPages]
  omega

/-- The first page of a range, then the others. -/
lemma inPages_succ (va n a : Nat) : InPages va (n + 1) a ↔ SamePage a va ∨ InPages (va + 4096) n a := by
  simp only [InPages, SamePage]
  omega

variable {a level va x : Nat} {b : Bool} {pt : PageTable}

lemma SamePage.not_inPages_next (h : SamePage a va) (n : Nat) : ¬ InPages (va + 4096) n a := by
  simp only [InPages, SamePage] at *
  omega

namespace PageTable

/-- The pages `[va, va + pages)` of an unmap: each valid descriptor is zeroed. -/
def clearPages (pt : PageTable) (va : Nat) : Nat → PageTable
  | 0 => pt
  | n + 1 =>
    let pt := if (pt.leaf va).isSome then pt.setPte va 0#64 else pt
    pt.clearPages (va + 4096) n

/-- The pages of a re-protect, with the number of descriptors rewritten. -/
def protectPages (pt : PageTable) (va : Nat) (flags : Pte) : Nat → Nat × PageTable
  | 0 => (0, pt)
  | n + 1 =>
    match pt.leaf va with
    | none => pt.protectPages (va + 4096) flags n
    | some w =>
      let r := (pt.setPte va (protectPte w flags)).protectPages (va + 4096) flags n
      (r.1 + 1, r.2)

end PageTable

namespace Kernel

/-- Replace the table rooted at `l0`. -/
def setTable (k : Kernel) (l0 : Nat) (pt : PageTable) : Kernel :=
  { k with tables := update k.tables l0 pt }

/-- `alloc_table`, as `mmu_create_user_tables` uses it: a zeroed L0 page. -/
def mmuCreateUserTables (k : Kernel) : Nat × Kernel :=
  match k.pmmAllocatePage with
  | (0, k) => (0, k)
  | (l0, k) => (l0, k.setTable l0 .empty)

/-- One level of `walk_levels` with `alloc`: the table page is there, or a fresh one is entered. -/
def walkLevel (k : Kernel) (l0 va level : Nat) : Bool × Kernel :=
  if ((k.tables l0).table? level va).isSome then (true, k)
  else
    match k.pmmAllocatePage with
    | (0, k) => (false, k)
    | (phys, k) => (true, k.setTable l0 ((k.tables l0).addTable level va phys))

/-- The remaining levels of a walk; table pages entered before a failure stay. -/
def walkFrom (k : Kernel) (l0 va : Nat) : List Nat → Bool × Kernel
  | [] => (true, k)
  | level :: levels =>
    match k.walkLevel l0 va level with
    | (false, k) => (false, k)
    | (true, k) => k.walkFrom l0 va levels

/-- `walk_levels(l0, va, 3, 1)`. -/
def walkLevels (k : Kernel) (l0 va : Nat) : Bool × Kernel := k.walkFrom l0 va [1, 2, 3]

/-- `mmu_map_user_range`. The source returns nothing; the flag tells whether every walk succeeded. -/
def mmuMapUserRange (k : Kernel) (l0 va pa : Nat) : Nat → Pte → Bool × Kernel
  | 0, _ => (true, k)
  | n + 1, flags =>
    match k.walkLevels l0 va with
    | (false, k) => (false, k)
    | (true, k) =>
      (k.setTable l0 ((k.tables l0).setPte va (leafPte pa flags))).mmuMapUserRange l0 (va + 4096)
        (pa + 4096) n flags

/-- The granules `invalidate_user_span` visits: one every 2 MiB. -/
def granules (va pages : Nat) : List Nat :=
  let start := pageAlignDown va
  let stop := pageAlignUp (add64 va (pages * 4096))
  (range ((stop - start + 0x1fffff) / 0x200000)).map fun i => start + i * 0x200000

section
variable (k : Kernel)

/-- `invalidate_user_span`: the operand of each `tlbi vae1` is the bare page number. -/
def invalidateUserSpan (va pages : Nat) : Kernel :=
  if pages = 0 then k
  else (granules va pages).foldl (fun k g => k.tlbiVae1 (g / 4096)) k

/-- `mmu_unmap_user_range`. -/
def mmuUnmapUserRange (l0 va pages : Nat) : Kernel :=
  if l0 = 0 ∨ pages = 0 then k
  else (k.setTable l0 ((k.tables l0).clearPages va pages)).invalidateUserSpan va pages

/-- `mmu_protect_user_range`. -/
def mmuProtectUserRange (l0 va pages : Nat) (flags : Pte) : Nat × Kernel :=
  if l0 = 0 ∨ pages = 0 then (0, k)
  else
    let r := (k.tables l0).protectPages va flags pages
    (r.1, (k.setTable l0 r.2).invalidateUserSpan va pages)

/-- `mmu_free_user_tables`. -/
def mmuFreeUserTables (l0 : Nat) : Kernel := k.pmmFreeList (k.tablePages l0)

end
end Kernel

/-! ## Leaves of a table -/

namespace PageTable

lemma leaf_some {w : Pte} (h : pt.leaf va = some w) : pteValid w = true ∧ w = pt.pte (va / 4096) := by
  unfold leaf at h
  split at h
  · rename_i hc
    simp only [Bool.and_eq_true] at hc
    cases h
    exact ⟨hc.2, rfl⟩
  · cases h

/-- The tables a walk consults depend only on the page of the address. -/
lemma tableKey_page {b : Nat} (hl : level ≤ 3) (h : SamePage a b) :
    tableKey level a = tableKey level b := by
  have hpow : 2 ^ (48 - 9 * level) = 4096 * 2 ^ (36 - 9 * level) := by
    rw [show 48 - 9 * level = 12 + (36 - 9 * level) by omega, Nat.pow_add]
  unfold tableKey
  rw [hpow, ← Nat.div_div_eq_div_mul, ← Nat.div_div_eq_div_mul, show a / 4096 = b / 4096 from h]

lemma leaf_page (pt : PageTable) {b : Nat} (h : SamePage a b) : pt.leaf a = pt.leaf b := by
  unfold leaf table?
  rw [tableKey_page (by decide) h, tableKey_page (by decide) h, tableKey_page (by decide) h,
    show a / 4096 = b / 4096 from h]

@[simp] lemma leaf_empty (va : Nat) : empty.leaf va = none := by
  simp [leaf, table?, empty]

/-- A fresh table page maps nothing new: what it covers was not reachable before. -/
lemma leaf_addTable (hl : 1 ≤ level ∧ level ≤ 3) (hnone : pt.table? level va = none) (a : Nat) :
    (pt.addTable level va phys).leaf a = pt.leaf a := by
  have hpage : tableKey level (a / 4096 * 4096) = tableKey level a :=
    tableKey_page hl.2 (by simp [SamePage])
  by_cases hkey : tableKey level a = tableKey level va
  · -- below the new table: absent before, zeroed now
    have hold : pt.leaf a = none := by
      have : pt.table? level a = none := by rw [table?, hkey]; exact hnone
      unfold leaf
      obtain ⟨h1, h3⟩ := hl
      interval_cases level <;> simp [this]
    have hnew : (pt.addTable level va phys).pte (a / 4096) = 0#64 := by
      simp [addTable, hpage, hkey]
    unfold leaf at *
    rw [hold, hnew]
    simp [pteValid]
  -- elsewhere the lookup skips the new entry
  have hpte : (pt.addTable level va phys).pte (a / 4096) = pt.pte (a / 4096) := by
    simp [addTable, hpage, hkey]
  have htab : ∀ l, (pt.addTable level va phys).table? l a = pt.table? l a := by
    intro l
    have hne : tableKey l a ≠ tableKey level va := by
      intro he
      have hlev : l = level := congrArg Prod.fst he
      exact hkey (hlev ▸ he)
    simp [table?, addTable, lookup_cons, beq_eq_false_iff_ne.mpr hne]
  simp only [leaf, htab, hpte]

/-- All three table pages of an address are present. -/
def Walked (pt : PageTable) (va : Nat) : Prop :=
  (pt.table? 1 va).isSome ∧ (pt.table? 2 va).isSome ∧ (pt.table? 3 va).isSome

lemma Walked.page {b : Nat} (hw : pt.Walked a) (h : SamePage a b) : pt.Walked b := by
  simpa only [Walked, table?, tableKey_page (show 1 ≤ 3 by decide) h,
    tableKey_page (show 2 ≤ 3 by decide) h, tableKey_page (show 3 ≤ 3 by decide) h] using hw

lemma leaf_eq_of_walked (hw : pt.Walked va) :
    pt.leaf va = if pteValid (pt.pte (va / 4096)) then some (pt.pte (va / 4096)) else none := by
  obtain ⟨h1, h2, h3⟩ := hw
  simp [leaf, h1, h2, h3]

lemma walked_of_leaf (h : (pt.leaf va).isSome) : pt.Walked va := by
  unfold leaf at h
  split_ifs at h with hc
  · simp only [Bool.and_eq_true] at hc
    exact ⟨hc.1.1.1, hc.1.1.2, hc.1.2⟩
  · simp at h

/-- Storing a descriptor on a walked page changes the leaf of that page only. -/
lemma leaf_setPte (w : Pte) (hw : pt.Walked va) (a : Nat) : (pt.setPte va w).leaf a =
      if SamePage a va then (if pteValid w then some w else none) else pt.leaf a := by
  by_cases h : SamePage a va
  · have hwa : (pt.setPte va w).Walked a := hw.page h.symm
    rw [if_pos h, leaf_eq_of_walked hwa]
    simp [setPte, show a / 4096 = va / 4096 from h]
  rw [if_neg h]
  have hpte : (pt.setPte va w).pte (a / 4096) = pt.pte (a / 4096) := update_of_ne h _ _
  simp only [leaf, hpte]
  rfl

section
variable (pt : PageTable) (va : Nat)

/-- Clearing a range removes exactly the leaves of its pages. -/
lemma leaf_clearPages (n a : Nat) :
    (pt.clearPages va n).leaf a = if InPages va n a then none else pt.leaf a := by
  induction n generalizing pt va with
  | zero =>
    rw [if_neg (not_inPages_zero va a), clearPages]
  | succ n ih =>
    -- the first page, then the rest of the range
    have hfirst : ∀ b, (if (pt.leaf va).isSome then pt.setPte va 0#64 else pt).leaf b =
        if SamePage b va then none else pt.leaf b := by
      intro b
      by_cases hs : (pt.leaf va).isSome
      · rw [if_pos hs, leaf_setPte _ (walked_of_leaf hs)]
        simp [pteValid]
      rw [if_neg hs]
      by_cases hb : SamePage b va
      · rw [if_pos hb, leaf_page pt hb]
        simpa using hs
      · rw [if_neg hb]
    rw [clearPages, ih, hfirst]
    by_cases h1 : SamePage a va
    · rw [if_neg (h1.not_inPages_next n), if_pos h1, if_pos ((inPages_succ va n a).mpr (.inl h1))]
    · rw [if_neg h1]
      exact if_congr (by rw [inPages_succ]; simp [h1]) rfl rfl

/-- Re-protecting a range rewrites exactly the leaves that are there. -/
lemma leaf_protectPages (flags : Pte) (n a : Nat) : (pt.protectPages va flags n).2.leaf a =
      if InPages va n a then (pt.leaf a).map (protectPte · flags) else pt.leaf a := by
  induction n generalizing pt va with
  | zero =>
    rw [if_neg (not_inPages_zero va a), protectPages]
  | succ n ih =>
    have hsplit := inPages_succ va n a
    rw [protectPages]
    cases hl : pt.leaf va with
    | none =>
      rw [ih]
      by_cases h1 : SamePage a va
      · rw [if_neg (h1.not_inPages_next n), if_pos (hsplit.mpr (.inl h1)), leaf_page pt h1, hl]
        rfl
      · exact if_congr (by rw [hsplit]; simp [h1]) rfl rfl
    | some w =>
      have hv := (leaf_some hl).1
      have hset := leaf_setPte (protectPte w flags) (walked_of_leaf (by rw [hl]; rfl)) a
      rw [protectPte_valid, hv, if_pos rfl] at hset
      rw [ih, hset]
      by_cases h1 : SamePage a va
      · rw [if_neg (h1.not_inPages_next n), if_pos h1, if_pos (hsplit.mpr (.inl h1)), leaf_page pt h1, hl]
        rfl
      · rw [if_neg h1]
        exact if_congr (by rw [hsplit]; simp [h1]) rfl rfl

@[simp] lemma clearPages_tabs (n : Nat) : (pt.clearPages va n).tabs = pt.tabs := by
  induction n generalizing pt va with
  | zero => rfl
  | succ n ih =>
    rw [clearPages, ih]
    split <;> rfl

@[simp] lemma protectPages_tabs (flags : Pte) (n : Nat) :
    (pt.protectPages va flags n).2.tabs = pt.tabs := by
  induction n generalizing pt va with
  | zero => rfl
  | succ n ih =>
    rw [protectPages]
    split
    · exact ih pt (va + 4096)
    · exact ih (pt.setPte va _) (va + 4096)

end
end PageTable

namespace Kernel

/-! ## The allocating walk

A walk may enter table pages, also when it fails. It touches no other table, no page contents and no
TLB entry, and the pages it takes join the pages of the table. -/

/-- Between `k` and `k'` the pages `xs` were taken, besides the pages that joined the table rooted at
`l0` and the kernel heap. -/
def Took (l0 : Nat) (xs : List Nat) (k k' : Kernel) : Prop :=
  ∃ ts, (k'.tables l0).pages = ts ++ (k.tables l0).pages ∧ Grown k k' (ts ++ xs)

namespace Took
variable {k'' : Kernel} {xs ys : List Nat}

/-- Pages were taken, none of them for the table. -/
lemma of_grown (h : Grown k k' xs) (ht : (k'.tables l0).tabs = (k.tables l0).tabs) : Took l0 xs k k' :=
  ⟨[], congrArg (map Prod.snd) ht, h⟩

lemma refl (l0 : Nat) (k : Kernel) : Took l0 [] k k := of_grown (.refl k) rfl

variable (h : Took l0 xs k k')
include h

lemma perm (hp : xs.Perm ys) : Took l0 ys k k' := by
  obtain ⟨ts, hpages, hg⟩ := h
  exact ⟨ts, hpages, hg.perm (hp.append_left ts)⟩

lemma trans (h' : Took l0 ys k' k'') : Took l0 (ys ++ xs) k k'' := by
  obtain ⟨ts, hpages, hg⟩ := h
  obtain ⟨ts', hpages', hg'⟩ := h'
  refine ⟨ts' ++ ts, by rw [hpages', hpages, append_assoc], (hg.trans hg').perm ?_⟩
  grind

lemma mono (hx : k.pmm.Allocated x) : k'.pmm.Allocated x := by
  obtain ⟨ts, -, hg⟩ := h
  exact hg.mono hx

lemma fresh (hx : x ∈ xs) : ¬ k.pmm.Allocated x := by
  obtain ⟨ts, -, hg⟩ := h
  exact hg.fresh (mem_append_right ts hx)

lemma taken (hx : x ∈ xs) : k'.pmm.Allocated x := by
  obtain ⟨ts, -, hg⟩ := h
  exact hg.taken (mem_append_right ts hx)

/-- The ledger: new table pages stand with the table, the others behind it. -/
lemma owns {F : List Nat} (hF : k.Owns (k.tablePages l0 ++ F)) :
    k'.Owns (k'.tablePages l0 ++ (xs ++ F)) := by
  obtain ⟨ts, hpages, hg⟩ := h
  refine Ledger.perm (hg.owns hF) ?_
  rw [tablePages, tablePages, hpages, cons_append, cons_append]
  grind

end Took

/-- What an operation that only builds the table rooted at `l0` does to the rest of the state. -/
structure TableStep (l0 : Nat) (k k' : Kernel) : Prop where
  shape : ∃ p gs pt, p.cfg = k.pmm.cfg ∧
    k' = { k with pmm := p, grants := gs, tables := update k.tables l0 pt }
  took : Took l0 [] k k'

namespace TableStep
variable {k'' : Kernel}

lemma refl (l0 : Nat) (k : Kernel) : TableStep l0 k k :=
  ⟨⟨k.pmm, k.grants, k.tables l0, rfl, by simp⟩, .refl l0 k⟩

section
variable (h : TableStep l0 k k')
include h

lemma trans (h' : TableStep l0 k' k'') : TableStep l0 k k'' := by
  refine ⟨?_, h.took.trans h'.took⟩
  obtain ⟨p, gs, pt, hc, rfl⟩ := h.shape
  obtain ⟨p', gs', pt', hc', rfl⟩ := h'.shape
  exact ⟨p', gs', pt', hc'.trans hc, by simp⟩

lemma frame : k'.frame = k.frame := by
  obtain ⟨p, gs, pt, -, rfl⟩ := h.shape
  rfl

lemma tlb : k'.tlb = k.tlb := by
  obtain ⟨p, gs, pt, -, rfl⟩ := h.shape
  rfl

lemma cfg : k'.pmm.cfg = k.pmm.cfg := by
  obtain ⟨p, gs, pt, hc, rfl⟩ := h.shape
  exact hc

lemma tables {l : Nat} (hl : l ≠ l0) : k'.tables l = k.tables l := by
  obtain ⟨p, gs, pt, -, rfl⟩ := h.shape
  exact update_of_ne hl _ _

lemma nextAsid : k'.nextAsid = k.nextAsid := by
  obtain ⟨p, gs, pt, -, rfl⟩ := h.shape
  rfl

lemma nextPid : k'.nextPid = k.nextPid := by
  obtain ⟨p, gs, pt, -, rfl⟩ := h.shape
  rfl

end

/-- Taking a page and entering it into the table. -/
lemma of_taken (hs : PmmStep k k') (hg : Grown k k' [phys])
    (hp : pt.pages = phys :: (k.tables l0).pages) : TableStep l0 k (k'.setTable l0 pt) := by
  obtain ⟨p, gs, hc, rfl⟩ := hs
  refine ⟨⟨p, gs, pt, hc, rfl⟩, [phys], ?_, hg⟩
  simp only [setTable, update_self]
  exact hp

/-- Rewriting descriptors without touching the table pages. -/
lemma of_tabs (ht : pt.tabs = (k.tables l0).tabs) : TableStep l0 k (k.setTable l0 pt) := by
  refine ⟨⟨k.pmm, k.grants, pt, rfl, rfl⟩, .of_grown (.of_pmm rfl) ?_⟩
  simp only [setTable, update_self]
  exact ht

end TableStep

@[simp] lemma setTable_leaf_self (k : Kernel) (l0 : Nat) (pt : PageTable) (va : Nat) :
    (k.setTable l0 pt).leaf l0 va = pt.leaf va := by
  simp [leaf, setTable]

/-- Effect of one level: leaves stay, tables stay, and on success the level is there. -/
lemma walkLevel_spec (hl : 1 ≤ level ∧ level ≤ 3) (h : k.walkLevel l0 va level = (b, k')) :
    TableStep l0 k k' ∧ (∀ a, k'.leaf l0 a = k.leaf l0 a) ∧
      (∀ l a, ((k.tables l0).table? l a).isSome → ((k'.tables l0).table? l a).isSome) ∧
      (b = true → ((k'.tables l0).table? level va).isSome) := by
  unfold walkLevel at h
  split_ifs at h with hp
  · cases h
    exact ⟨.refl _ _, fun _ => rfl, fun _ _ h => h, fun _ => hp⟩
  have hnone : (k.tables l0).table? level va = none := by simpa using hp
  split at h
  · -- no page for the table
    rename_i k1 hal
    cases h
    obtain ⟨⟨p, gs, hc, rfl⟩, hcase⟩ := pmmAllocatePage_cases hal
    have hpm : p = k.pmm := by
      rcases hcase with ⟨-, hp⟩ | ⟨hne, -⟩
      · exact hp
      · exact absurd rfl hne
    subst hpm
    exact ⟨⟨⟨k.pmm, gs, k.tables l0, rfl, by simp⟩, .of_grown (.of_pmm rfl) rfl⟩, fun _ => rfl,
      fun _ _ h => h, fun h => by cases h⟩
  rename_i phys k1 hne hal
  cases h
  obtain ⟨hs, -⟩ := pmmAllocatePage_cases hal
  rw [pmmAllocatePage_eq] at hal
  have hg := pmmAllocatePages_grown hal hne
  have htab : k1.tables = k.tables := by
    obtain ⟨p, gs, -, rfl⟩ := hs
    rfl
  refine ⟨.of_taken hs hg (by rw [htab]; rfl), fun a => ?_, fun l a ha => ?_, fun _ => ?_⟩
  · rw [setTable_leaf_self, htab]
    exact PageTable.leaf_addTable hl hnone a
  · simp only [setTable, update_self, htab, PageTable.table?, PageTable.addTable, lookup_cons]
    split
    · rfl
    · exact ha
  · simp [setTable, PageTable.table?, PageTable.addTable]

lemma walkFrom_spec {levels : List Nat} (hl : ∀ l ∈ levels, 1 ≤ l ∧ l ≤ 3)
    (h : k.walkFrom l0 va levels = (b, k')) :
    TableStep l0 k k' ∧ (∀ a, k'.leaf l0 a = k.leaf l0 a) ∧
      (∀ l a, ((k.tables l0).table? l a).isSome → ((k'.tables l0).table? l a).isSome) ∧
      (b = true → ∀ l ∈ levels, ((k'.tables l0).table? l va).isSome) := by
  induction levels generalizing k with
  | nil =>
    cases h
    exact ⟨.refl _ _, fun _ => rfl, fun _ _ h => h, fun _ l hl => by cases hl⟩
  | cons level levels ih =>
    rw [walkFrom] at h
    have hlev := hl level (by simp)
    split at h
    · rename_i k1 hw
      cases h
      obtain ⟨hs, hleaf, hkeep, -⟩ := walkLevel_spec hlev hw
      exact ⟨hs, hleaf, hkeep, fun h => by cases h⟩
    rename_i k1 hw
    obtain ⟨hs, hleaf, hkeep, hok⟩ := walkLevel_spec hlev hw
    obtain ⟨hs', hleaf', hkeep', hok'⟩ := ih (fun l h => hl l (by simp [h])) h
    refine ⟨hs.trans hs', fun a => by rw [hleaf', hleaf],
      fun l a ha => hkeep' l a (hkeep l a ha), fun hb l hmem => ?_⟩
    rcases mem_cons.mp hmem with rfl | hmem
    · exact hkeep' _ _ (hok rfl)
    · exact hok' hb l hmem

/-- **The walk**: leaves are unchanged, and after a successful walk the L3 entry can be stored. -/
lemma walkLevels_spec (h : k.walkLevels l0 va = (b, k')) :
    TableStep l0 k k' ∧ (∀ a, k'.leaf l0 a = k.leaf l0 a) ∧ (b = true → (k'.tables l0).Walked va) := by
  obtain ⟨hs, hleaf, -, hok⟩ := walkFrom_spec (by decide) h
  exact ⟨hs, hleaf, fun hb => ⟨hok hb 1 (by simp), hok hb 2 (by simp), hok hb 3 (by simp)⟩⟩

/-- **Mapping** installs the first `m` pages of the range and nothing else; `m` falls short only when
a walk fails. -/
lemma mmuMapUserRange_spec {pa n : Nat} {flags : Pte}
    (h : k.mmuMapUserRange l0 va pa n flags = (b, k')) :
    TableStep l0 k k' ∧ ∃ m, m ≤ n ∧ (b = true ↔ m = n) ∧ ∀ a, k'.leaf l0 a =
      if InPages va m a then some (leafPte (pa + (a / 4096 - va / 4096) * 4096) flags)
      else k.leaf l0 a := by
  induction n generalizing k va pa with
  | zero =>
    cases h
    exact ⟨.refl _ _, 0, le_refl _, by simp, fun a => by rw [if_neg (not_inPages_zero va a)]⟩
  | succ n ih =>
    rw [mmuMapUserRange] at h
    split at h
    · rename_i k1 hw
      cases h
      obtain ⟨hs, hleaf, -⟩ := walkLevels_spec hw
      exact ⟨hs, 0, by omega, by simp, fun a => by rw [if_neg (not_inPages_zero va a), hleaf]⟩
    rename_i k1 hw
    obtain ⟨hs, hleaf, hok⟩ := walkLevels_spec hw
    obtain ⟨hs', m, hm, hb, hleaf'⟩ := ih h
    have hset : TableStep l0 k1
        (k1.setTable l0 ((k1.tables l0).setPte va (leafPte pa flags))) := .of_tabs rfl
    refine ⟨(hs.trans hset).trans hs', m + 1, by omega, by rw [hb]; omega, fun a => ?_⟩
    have hset := PageTable.leaf_setPte (leafPte pa flags) (hok rfl) a
    rw [hleaf', setTable_leaf_self, hset]
    by_cases h1 : SamePage a va
    · rw [if_neg (h1.not_inPages_next m), if_pos h1,
        if_pos ((inPages_succ va m a).mpr (.inl h1)), show a / 4096 = va / 4096 from h1]
      simp
    rw [if_neg h1]
    by_cases h2 : InPages (va + 4096) m a
    · rw [if_pos h2, if_pos ((inPages_succ va m a).mpr (.inr h2))]
      -- the page numbers count from the second page of the range
      have hpa : pa + 4096 + (a / 4096 - (va + 4096) / 4096) * 4096 =
          pa + (a / 4096 - va / 4096) * 4096 := by
        simp only [InPages] at h2
        omega
      rw [hpa]
    · rw [if_neg h2, if_neg (by rw [inPages_succ]; simp [h1, h2])]
      exact hleaf a

/-! ## Editing a range in place

Unmapping and re-protecting change descriptors and drop TLB entries; they take and give no page. -/

lemma invalidateUserSpan_spec (k : Kernel) (va pages : Nat) :
    ∃ tlb, (∀ a v w, tlb a v w = true → k.tlb a v w = true) ∧
      k.invalidateUserSpan va pages = { k with tlb := tlb } := by
  unfold invalidateUserSpan
  split
  · exact ⟨k.tlb, fun _ _ _ h => h, rfl⟩
  -- every instruction of the loop only removes entries
  generalize granules va pages = gs
  induction gs generalizing k with
  | nil => exact ⟨k.tlb, fun _ _ _ h => h, rfl⟩
  | cons g gs ih =>
    obtain ⟨tlb, hsub, heq⟩ := ih (k.tlbiVae1 (g / 4096))
    refine ⟨tlb, fun a v w h => ?_, heq⟩
    have := hsub a v w h
    simp only [tlbiVae1, Bool.and_eq_true] at this
    exact this.1

/-- **Unmapping** removes the leaves of the range; nothing but the table and the TLB changes. -/
lemma mmuUnmapUserRange_spec (k : Kernel) (hl0 : l0 ≠ 0) (va pages : Nat) :
    ∃ pt tlb, pt.tabs = (k.tables l0).tabs ∧ (∀ a v w, tlb a v w = true → k.tlb a v w = true) ∧
      (∀ a, pt.leaf a = if InPages va pages a then none else k.leaf l0 a) ∧
      k.mmuUnmapUserRange l0 va pages = { k with tables := update k.tables l0 pt, tlb := tlb } := by
  by_cases hp : pages = 0
  · subst hp
    refine ⟨k.tables l0, k.tlb, rfl, fun _ _ _ h => h, fun a => ?_, ?_⟩
    · rw [if_neg (not_inPages_zero va a)]
      rfl
    · simp [mmuUnmapUserRange]
  obtain ⟨tlb, hsub, heq⟩ := invalidateUserSpan_spec
    (k.setTable l0 ((k.tables l0).clearPages va pages)) va pages
  refine ⟨_, tlb, PageTable.clearPages_tabs _ va pages, hsub,
    fun a => PageTable.leaf_clearPages _ va pages a, ?_⟩
  rw [mmuUnmapUserRange, if_neg (by simp [hl0, hp]), heq]
  rfl

/-- **Re-protecting** rewrites the permission bits of the leaves of the range. -/
lemma mmuProtectUserRange_spec (k : Kernel) (hl0 : l0 ≠ 0) (va pages : Nat) (flags : Pte) :
    ∃ pt tlb, pt.tabs = (k.tables l0).tabs ∧ (∀ a v w, tlb a v w = true → k.tlb a v w = true) ∧
      (∀ a, pt.leaf a = if InPages va pages a then (k.leaf l0 a).map (protectPte · flags)
        else k.leaf l0 a) ∧
      (k.mmuProtectUserRange l0 va pages flags).2 =
        { k with tables := update k.tables l0 pt, tlb := tlb } := by
  by_cases hp : pages = 0
  · subst hp
    refine ⟨k.tables l0, k.tlb, rfl, fun _ _ _ h => h, fun a => ?_, ?_⟩
    · rw [if_neg (not_inPages_zero va a)]
      rfl
    · simp [mmuProtectUserRange]
  obtain ⟨tlb, hsub, heq⟩ := invalidateUserSpan_spec
    (k.setTable l0 ((k.tables l0).protectPages va flags pages).2) va pages
  refine ⟨_, tlb, PageTable.protectPages_tabs _ va flags pages, hsub,
    fun a => PageTable.leaf_protectPages _ va flags pages a, ?_⟩
  rw [mmuProtectUserRange, if_neg (by simp [hl0, hp])]
  exact heq

/-! ## Creating and freeing a table -/

variable (h : k.mmuCreateUserTables = (l0, k'))
include h

/-- A new address space is one zeroed page, or nothing was taken. -/
lemma mmuCreateUserTables_cases : (l0 = 0 ∧ ∃ gs, k' = { k with grants := gs }) ∨
      (l0 ≠ 0 ∧ Taken k.pmm.Allocated k'.pmm.Allocated [l0] ∧ ∃ p gs, p.cfg = k.pmm.cfg ∧
        k' = { k with pmm := p, grants := gs, tables := update k.tables l0 .empty }) := by
  unfold mmuCreateUserTables at h
  split at h
  · rename_i k1 hal
    cases h
    obtain ⟨⟨p, gs, hc, rfl⟩, hcase⟩ := pmmAllocatePage_cases hal
    rcases hcase with ⟨-, hp⟩ | ⟨hne, -⟩
    · exact .inl ⟨rfl, gs, by rw [show p = k.pmm from hp]⟩
    · exact absurd rfl hne
  rename_i pa k1 hne hal
  cases h
  obtain ⟨⟨p, gs, hc, rfl⟩, hcase⟩ := pmmAllocatePage_cases hal
  rcases hcase with ⟨h0, -⟩ | ⟨h0, ht⟩
  · exact (hne h0).elim
  · exact .inr ⟨h0, ht, p, gs, hc, rfl⟩

lemma mmuCreateUserTables_grown (h0 : l0 ≠ 0) : Grown k k' [l0] := by
  unfold mmuCreateUserTables at h
  rw [pmmAllocatePage_eq] at h
  split at h
  · cases h
    exact absurd rfl h0
  rename_i pa k1 hne hal
  cases h
  have hg := pmmAllocatePages_grown hal hne
  exact hg

end Kernel
end FermiOs
