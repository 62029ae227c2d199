import FermiOs.Mm.Mmu

/-!
# Building an address space

Task creation, `fork` and `exec` all build a page table the same way: take pages, fill them, map
them, and go on. A table under construction is described by the mappings made so far. A later mapping
of an address hides an earlier one, so the table reads as the `overlay` of the list; a mapping whose
table walk ran out of pages is cut short.

`BuildStep` says what such a stretch of code does: which pages it takes, which mappings it makes, and
that it leaves everything that was allocated before alone. Stretches compose (`BuildStep.trans`), and
`BuildStep.takeMap` is the one for the basic move.
-/

namespace FermiOs
open Library List

/-- The arguments of one `mmu_map_user_range`. -/
@[ext]
structure Mapping where
  va : Nat
  pa : Nat
  pages : Nat
  flags : Pte

/-- The descriptor a mapping gives to an address. -/
def Mapping.at? (m : Mapping) (a : Nat) : Option Pte :=
  if InPages m.va m.pages a then some (leafPte (m.pa + (a / 4096 - m.va / 4096) * 4096) m.flags)
  else none

/-- A list of mappings, made from left to right. -/
def overlay : List Mapping → Nat → Option Pte
  | [], _ => none
  | m :: ms, a => (overlay ms a).or (m.at? a)

/-- `m'` is `m`, or `m` stopped short by a failed walk. -/
structure Mapping.Cut (m m' : Mapping) : Prop where
  va : m'.va = m.va
  pa : m'.pa = m.pa
  flags : m'.flags = m.flags
  pages : m'.pages ≤ m.pages

variable {frame : Nat → Nat → UInt8} {i : Nat} {ms' ns : List Mapping} {ok' : Bool}

lemma overlay_append (ms ms' : List Mapping) (a : Nat) :
    overlay (ms ++ ms') a = (overlay ms' a).or (overlay ms a) := by
  induction ms with
  | nil =>
    rw [nil_append, overlay, Option.or_none]
  | cons m ms ih =>
    rw [cons_append, overlay, overlay, ih, Option.or_assoc]

variable {a n pa va : Nat} {flags w : Pte} {k1 k3 : Kernel} {m : Mapping} {ms : List Mapping}
  {ok : Bool} {xs : List Nat}

/-- What an overlay shows comes from one of its mappings. -/
lemma overlay_some (h : overlay ms a = some w) : ∃ m ∈ ms, m.at? a = some w := by
  induction ms with
  | nil => cases h
  | cons m ms ih =>
    rw [overlay, Option.or_eq_some_iff] at h
    rcases h with h | ⟨-, h⟩
    · obtain ⟨m', hm', hat⟩ := ih h
      exact ⟨m', mem_cons_of_mem _ hm', hat⟩
    · exact ⟨m, mem_cons_self, h⟩

lemma overlay_eq_none (h : ∀ m ∈ ms, m.at? a = none) : overlay ms a = none := by
  cases hw : overlay ms a with
  | none => rfl
  | some w =>
    obtain ⟨m, hm, hat⟩ := overlay_some hw
    rw [h m hm] at hat
    cases hat

lemma Mapping.at?_some (h : m.at? a = some w) :
    InPages m.va m.pages a ∧ w = leafPte (m.pa + (a / 4096 - m.va / 4096) * 4096) m.flags := by
  unfold at? at h
  split at h
  · rename_i hin
    cases h
    exact ⟨hin, rfl⟩
  · cases h

/-- A shortened mapping shows nothing the full one would not. -/
lemma Mapping.Cut.at? {m' : Mapping} (hc : m.Cut m') (h : m'.at? a = some w) : m.at? a = some w := by
  obtain ⟨⟨hlo, hhi⟩, rfl⟩ := Mapping.at?_some h
  have hin : InPages m.va m.pages a := by
    have := hc.pages
    refine ⟨?_, ?_⟩
    · rw [← hc.va]
      exact hlo
    · rw [← hc.va]
      omega
  rw [Mapping.at?, if_pos hin, hc.pa, hc.va, hc.flags]

/-! ## Which mappings show

A list of mappings of distinct pages. Every page of every mapping is visible exactly when no mapping
was cut short and no address belongs to two of them. -/

/-- No address lies on pages of both. -/
def Mapping.Apart (m m' : Mapping) : Prop :=
  ∀ a, ¬ (InPages m.va m.pages a ∧ InPages m'.va m'.pages a)

/-- The physical pages of a list of mappings. -/
def mappingPages (ms : List Mapping) : List Nat := ms.flatMap fun m => pagesFrom m.pa m.pages

/-- Mappings the kernel can make: whole pages of distinct physical memory, and flags that leave the
address field alone. -/
structure Mappable (ms : List Mapping) : Prop where
  nodup : (mappingPages ms).Nodup
  page : ∀ x ∈ mappingPages ms, x % 4096 = 0 ∧ x < 2 ^ 48
  flags : ∀ m ∈ ms, FlagsOk m.flags
  va : ∀ m ∈ ms, m.va % 4096 = 0

lemma mem_mappingPages (hm : m ∈ ms) (hi : i < m.pages) : m.pa + i * 4096 ∈ mappingPages ms :=
  mem_flatMap.mpr ⟨m, hm, mem_pagesFrom.mpr ⟨i, hi, rfl⟩⟩

/-- One physical page belongs to one page of one mapping. -/
lemma Mappable.page_inj (h : Mappable ms) {u v : Nat} (hu : u < ms.length) (hv : v < ms.length)
    {j : Nat} (hi : i < ms[u].pages) (hj : j < ms[v].pages)
    (he : ms[u].pa + i * 4096 = ms[v].pa + j * 4096) : u = v ∧ i = j := by
  obtain ⟨-, hpair⟩ := nodup_flatMap.mp h.nodup
  rw [pairwise_iff_getElem] at hpair
  have hleft : ms[u].pa + i * 4096 ∈ pagesFrom ms[u].pa ms[u].pages := mem_pagesFrom.mpr ⟨i, hi, rfl⟩
  have hright : ms[u].pa + i * 4096 ∈ pagesFrom ms[v].pa ms[v].pages := mem_pagesFrom.mpr ⟨j, hj, he⟩
  rcases lt_trichotomy u v with hlt | rfl | hlt
  · exact absurd hright (hpair u v hu hv hlt hleft)
  · exact ⟨rfl, by omega⟩
  · exact absurd hleft (hpair v u hv hu hlt hright)

/-- The page a descriptor of a mapping points at. -/
lemma Mappable.frame_at? (h : Mappable ms) (hm : m ∈ ms) (hw : m.at? a = some w) :
    a / 4096 - m.va / 4096 < m.pages ∧ pteFrame w = m.pa + (a / 4096 - m.va / 4096) * 4096 := by
  obtain ⟨⟨hlo, hhi⟩, rfl⟩ := Mapping.at?_some hw
  have hi : a / 4096 - m.va / 4096 < m.pages := by omega
  obtain ⟨hal, hlt⟩ := h.page _ (mem_mappingPages hm hi)
  exact ⟨hi, leafPte_frame (h.flags m hm) hal hlt⟩

/-- A mapping that meets no other one shows all its pages. -/
lemma overlay_of_apart (h : ms.Pairwise Mapping.Apart) (hm : m ∈ ms)
    (hin : InPages m.va m.pages a) : overlay ms a = m.at? a := by
  induction ms with
  | nil => cases hm
  | cons m0 ms ih =>
    obtain ⟨hhead, htail⟩ := pairwise_cons.mp h
    rw [overlay]
    rcases mem_cons.mp hm with rfl | hm
    · rw [overlay_eq_none fun m' hm' => ?_, Option.none_or]
      exact if_neg fun hin' => hhead m' hm' a ⟨hin, hin'⟩
    · rw [ih htail hm, Mapping.at?, if_pos hin, Option.some_or]

/-- **Visibility**: all pages of all mappings can be seen exactly when none was cut and no two of them
meet. -/
lemma overlay_shows_iff (h : Mappable ms) (hcut : Forall₂ Mapping.Cut ms ms') :
    (∀ m ∈ ms, ∀ i < m.pages, ∃ w, overlay ms' (m.va + i * 4096) = some w ∧
      pteFrame w = m.pa + i * 4096) ↔ ms' = ms ∧ ms.Pairwise Mapping.Apart := by
  obtain ⟨hlen, hget⟩ := List.forall₂_iff_get.mp hcut
  constructor
  · intro hall
    -- what shows at a page of mapping `u` comes from mapping `u`
    have hown : ∀ u (hu : u < ms.length) (hu' : u < ms'.length), ∀ i < ms[u].pages,
        i < ms'[u].pages := by
      intro u hu hu' i hi
      obtain ⟨w, hw, hframe⟩ := hall ms[u] (getElem_mem hu) i hi
      obtain ⟨m', hm', hat⟩ := overlay_some hw
      obtain ⟨v, hv', rfl⟩ := getElem_of_mem hm'
      have hv : v < ms.length := hlen ▸ hv'
      have hc : Mapping.Cut ms[v] ms'[v] := hget v hv hv'
      obtain ⟨hj, hframe'⟩ := h.frame_at? (getElem_mem hv) (hc.at? hat)
      obtain ⟨rfl, hij⟩ := h.page_inj hu hv hi hj (hframe.symm.trans hframe')
      obtain ⟨⟨hlo, hhi⟩, -⟩ := Mapping.at?_some hat
      rw [hc.va] at hlo hhi
      omega
    refine ⟨?_, ?_⟩
    · refine ext_getElem hlen.symm fun u hu' hu => ?_
      have hc : Mapping.Cut ms[u] ms'[u] := hget u hu hu'
      have hpages : ms'[u].pages = ms[u].pages := by
        by_contra hne
        have hlt : ms'[u].pages < ms[u].pages := lt_of_le_of_ne hc.pages hne
        exact absurd (hown u hu hu' _ hlt) (lt_irrefl _)
      exact Mapping.ext hc.va hc.pa hpages hc.flags
    rw [pairwise_iff_getElem]
    intro u v hu hv huv a ⟨⟨hlo, hhi⟩, hlo', hhi'⟩
    obtain ⟨w, hw, hframe⟩ := hall ms[u] (getElem_mem hu) (a / 4096 - ms[u].va / 4096) (by omega)
    obtain ⟨w', hw', hframe'⟩ := hall ms[v] (getElem_mem hv) (a / 4096 - ms[v].va / 4096) (by omega)
    -- both pages start at the same address
    have hal := h.va ms[u] (getElem_mem hu)
    have hal' := h.va ms[v] (getElem_mem hv)
    have hsame : ms[u].va + (a / 4096 - ms[u].va / 4096) * 4096 =
        ms[v].va + (a / 4096 - ms[v].va / 4096) * 4096 := by omega
    rw [hsame, hw'] at hw
    obtain rfl := Option.some.inj hw
    have hne := (h.page_inj hu hv (by omega) (by omega) (hframe.symm.trans hframe')).1
    omega
  rintro ⟨rfl, hapart⟩ m hm i hi
  have hidx : (m.va + i * 4096) / 4096 - m.va / 4096 = i := by omega
  have hin : InPages m.va m.pages (m.va + i * 4096) := by
    simp only [InPages]
    omega
  have hat : m.at? (m.va + i * 4096) = some (leafPte (m.pa + i * 4096) m.flags) := by
    rw [Mapping.at?, if_pos hin, hidx]
  obtain ⟨-, hframe⟩ := h.frame_at? hm hat
  refine ⟨_, (overlay_of_apart hapart hm hin).trans hat, ?_⟩
  rw [hframe, hidx]

/-- Two lists of mappings are uncut exactly when their concatenation is. -/
lemma cut_append_iff {ns' : List Mapping} (hcut : Forall₂ Mapping.Cut ms ms')
    (hok : ok = true ↔ ms' = ms) (hok' : ok' = true ↔ ns' = ns) :
    (ok && ok') = true ↔ ms' ++ ns' = ms ++ ns := by
  rw [Bool.and_eq_true, hok, hok']
  constructor
  · rintro ⟨rfl, rfl⟩
    rfl
  · intro h
    exact append_inj h hcut.length_eq.symm

namespace Kernel

/-- A run of allocated pages starts on a page boundary, unless it is empty. -/
lemma run_aligned {p : Pmm} (h : ∀ x ∈ pagesFrom pa n, p.Allocated x) : n = 0 ∨ pa % 4096 = 0 := by
  by_cases hn : n = 0
  · exact .inl hn
  · have hmem : pa ∈ pagesFrom pa n := mem_pagesFrom.mpr ⟨0, pos_of_ne_zero hn, by omega⟩
    exact .inr (h pa hmem).bounds.1

lemma memsetPages_frame (k : Kernel) (hpa : n = 0 ∨ pa % 4096 = 0) :
    ∀ p, p % 4096 = 0 → p ∉ pagesFrom pa n → (k.memsetPages pa n).frame p = k.frame p := by
  intro p hp hx
  funext off
  have hout : ¬ (pa ≤ p ∧ p < pa + n * 4096) := by
    intro hin
    exact hx (mem_pagesFrom.mpr ⟨(p - pa) / 4096, by omega, by omega⟩)
  exact if_neg hout

lemma memcpyPages_frame (k : Kernel) {dst : Nat} (src : Nat) (hdst : n = 0 ∨ dst % 4096 = 0) :
    ∀ p, p % 4096 = 0 → p ∉ pagesFrom dst n → (k.memcpyPages dst src n).frame p = k.frame p := by
  intro p hp hx
  funext off
  have hout : ¬ (dst ≤ p ∧ p < dst + n * 4096) := by
    intro hin
    exact hx (mem_pagesFrom.mpr ⟨(p - dst) / 4096, by omega, by omega⟩)
  exact if_neg hout

/-- Between `k` and `k'` the pages `xs` were taken and the mappings `ms` made in the table rooted at
`l0`; `ok` tells whether every walk found its table pages. -/
structure BuildStep (l0 : Nat) (xs : List Nat) (ms : List Mapping) (ok : Bool) (k k' : Kernel) :
    Prop where
  took : Took l0 xs k k'
  tables : ∀ l, l ≠ l0 → k'.tables l = k.tables l
  frame : ∀ p, p % 4096 = 0 → p ∉ xs → k'.frame p = k.frame p
  leaf : ∃ ms', Forall₂ Mapping.Cut ms ms' ∧ (ok = true ↔ ms' = ms) ∧
    ∀ a, k'.leaf l0 a = (overlay ms' a).or (k.leaf l0 a)
  tlb : k'.tlb = k.tlb
  cfg : k'.pmm.cfg = k.pmm.cfg
  nextPid : k'.nextPid = k.nextPid
  nextAsid : k'.nextAsid = k.nextAsid

namespace BuildStep
variable {l0 : Nat} {k k' k'' : Kernel}

section
variable (h : BuildStep l0 xs ms ok k k')
include h

lemma owns (F : List Nat) (hF : k.Owns (k.tablePages l0 ++ F)) :
    k'.Owns (k'.tablePages l0 ++ (xs ++ F)) :=
  h.took.owns hF

lemma fresh : ∀ x ∈ xs, ¬ k.pmm.Allocated x :=
  fun _ hx => h.took.fresh hx

lemma taken : ∀ x ∈ xs, k'.pmm.Allocated x :=
  fun _ hx => h.took.taken hx

lemma mono (x : Nat) (hx : k.pmm.Allocated x) : k'.pmm.Allocated x :=
  h.took.mono hx

end

lemma refl (l0 : Nat) (k : Kernel) : BuildStep l0 [] [] true k k where
  took := .refl l0 k
  tables := fun _ _ => rfl
  frame := fun _ _ _ => rfl
  leaf := ⟨[], .nil, by simp, fun a => by rw [overlay, Option.none_or]⟩
  tlb := rfl
  cfg := rfl
  nextPid := rfl
  nextAsid := rfl

lemma trans {ys : List Nat} (h : BuildStep l0 xs ms ok k k') (h' : BuildStep l0 ys ns ok' k' k'') :
    BuildStep l0 (ys ++ xs) (ms ++ ns) (ok && ok') k k'' where
  took := h.took.trans h'.took
  tables := fun l hl => (h'.tables l hl).trans (h.tables l hl)
  frame := by
    intro p hp hx
    have hx := not_or.mp (mt mem_append.mpr hx)
    exact (h'.frame p hp hx.1).trans (h.frame p hp hx.2)
  leaf := by
    obtain ⟨ms', hcut, hok, hleaf⟩ := h.leaf
    obtain ⟨ns', hcut', hok', hleaf'⟩ := h'.leaf
    refine ⟨ms' ++ ns', rel_append hcut hcut', cut_append_iff hcut hok hok', ?_⟩
    intro a
    rw [hleaf', hleaf, overlay_append, Option.or_assoc]
  tlb := h'.tlb.trans h.tlb
  cfg := h'.cfg.trans h.cfg
  nextPid := h'.nextPid.trans h.nextPid
  nextAsid := h'.nextAsid.trans h.nextAsid

/-- Mapping pages that are not taken for it, as the kernel window is. -/
lemma map (h : k.mmuMapUserRange l0 va pa n flags = (ok, k')) :
    BuildStep l0 [] [⟨va, pa, n, flags⟩] ok k k' := by
  obtain ⟨hs, m, hm, hb, hleaf⟩ := mmuMapUserRange_spec h
  refine ⟨hs.took, fun l hl => hs.tables hl, fun p _ _ => by rw [hs.frame],
    ⟨[⟨va, pa, m, flags⟩], .cons ⟨rfl, rfl, rfl, hm⟩ .nil, ?_, ?_⟩, hs.tlb, hs.cfg, hs.nextPid,
    hs.nextAsid⟩
  · rw [hb]
    simp
  intro a
  rw [hleaf a, overlay, overlay, Option.none_or, Mapping.at?]
  split
  · rfl
  · rw [Option.none_or]

/-- Steps of the kernel heap in between. -/
lemma of_pmm (h : PmmStep k k') (hg : Grown k k' []) : BuildStep l0 [] [] true k k' := by
  obtain ⟨p, gs, hc, rfl⟩ := h
  refine ⟨.of_grown hg rfl, fun _ _ => rfl, fun _ _ _ => rfl, ⟨[], .nil, by simp, fun a => ?_⟩, rfl,
    hc, rfl, rfl⟩
  rfl

/-- A page request, with the pages it returns. -/
lemma take (h : k.pmmAllocatePages n = (pa, k')) (h0 : pa ≠ 0) :
    BuildStep l0 (pagesFrom pa n) [] true k k' := by
  have hg := pmmAllocatePages_grown h h0
  obtain ⟨⟨p, gs, hc, rfl⟩, -⟩ := pmmAllocatePages_cases h
  refine ⟨.of_grown hg rfl, fun _ _ => rfl, fun _ _ _ => rfl, ⟨[], .nil, by simp, fun a => ?_⟩, rfl,
    hc, rfl, rfl⟩
  rfl

/-- Writing into pages that were taken. -/
lemma fill (h : BuildStep l0 xs ms ok k k') (hf : ∀ p, p % 4096 = 0 → p ∉ xs → frame p = k'.frame p) :
    BuildStep l0 xs ms ok k { k' with frame := frame } :=
  { h with
    took := h.took
    frame := fun p hp hx => (hf p hp hx).trans (h.frame p hp hx)
    leaf := h.leaf }

section
variable (hal : k.pmmAllocatePages n = (pa, k1))
include hal

/-- **The basic move**: take a run of pages, fill it, map it. -/
lemma takeMap (h0 : pa ≠ 0) (hf : ∀ p, p % 4096 = 0 → p ∉ pagesFrom pa n → frame p = k1.frame p)
    (hmap : ({ k1 with frame := frame } : Kernel).mmuMapUserRange l0 va pa n flags = (ok, k3)) :
    BuildStep l0 (pagesFrom pa n) [⟨va, pa, n, flags⟩] ok k k3 := by
  have htake : BuildStep l0 (pagesFrom pa n) [] true k k1 := take hal h0
  have hstep := (htake.fill hf).trans (map hmap)
  simpa only [nil_append, Bool.true_and] using hstep

/-- The basic move with cleared pages. -/
lemma takeZero (h0 : pa ≠ 0)
    (hmap : (k1.memsetPages pa n).mmuMapUserRange l0 va pa n flags = (ok, k3)) :
    BuildStep l0 (pagesFrom pa n) [⟨va, pa, n, flags⟩] ok k k3 := by
  have htake : BuildStep l0 (pagesFrom pa n) [] true k k1 := take hal h0
  exact takeMap hal h0 (memsetPages_frame k1 (run_aligned htake.taken)) hmap

/-- The basic move with copied pages. -/
lemma takeCopy {src : Nat} (h0 : pa ≠ 0)
    (hmap : (k1.memcpyPages pa src n).mmuMapUserRange l0 va pa n flags = (ok, k3)) :
    BuildStep l0 (pagesFrom pa n) [⟨va, pa, n, flags⟩] ok k k3 := by
  have htake : BuildStep l0 (pagesFrom pa n) [] true k k1 := take hal h0
  exact takeMap hal h0 (memcpyPages_frame k1 src (run_aligned htake.taken)) hmap

end

/-- Whatever was allocated keeps its contents. -/
lemma frame_allocated (h : BuildStep l0 xs ms ok k k') {p : Nat} (hp : k.pmm.Allocated p) :
    k'.frame p = k.frame p :=
  h.frame p hp.bounds.1 fun hx => h.fresh p hx hp

end BuildStep

/-! ## What a program sees -/

section
variable (k : Kernel) (l0 va : Nat)

/-- The table translates `va` to the page `pa`. -/
def PointsAt (pa : Nat) : Prop := ∃ w, k.leaf l0 va = some w ∧ pteFrame w = pa

/-- The byte a load at EL0 returns; `none` stands for a fault. -/
def userByte : Option UInt8 :=
  match k.leaf l0 va with
  | none => none
  | some w => if el0Read w then some (k.frame (pteFrame w) (va % 4096)) else none

/-- A program that reads from `va` on finds these bytes. -/
def UserHolds (bytes : List UInt8) : Prop :=
  ∀ i < bytes.length, k.userByte l0 (va + i) = some (bytes.getD i 0)

end
end Kernel
end FermiOs
