import FermiOs.Library.Run
import FermiOs.Mm.Heap

/-!
# Runs of the kernel heap

Every sequence of `kmalloc`, `kfree` and stores into payloads, with the page allocator granting or
refusing each region. In every state the list of blocks tiles the registered regions, the magic number
and the flag of every header agree, and the payloads in use are aligned, large enough, and apart from
each other and from all headers.

A payload need not lie inside one region: `kfree` merges free neighbours across the border of two
regions that touch, and a later `kmalloc` may hand out a block on both sides of it.
-/

namespace FermiOs
open Library List Function
variable {b : Block} {bs l r : List Block} {bytes n phys x : Nat} {h : Heap} {m : Bytes}
  {E : Nat → Prop} {bs' : List Block} {c ptr v : Nat} {live : List (Nat × Nat)} {t : Block}

namespace Heap

/-! ## States -/

/-- The address belongs to a registered region. -/
def InRegions (h : Heap) (x : Nat) : Prop := ∃ r ∈ h.regions, r.1 ≤ x ∧ x < r.1 + r.2

/-- The blocks `bs` are in memory and tile the regions. -/
structure Repr (h : Heap) (bs : List Block) : Prop where
  linked : Linked h.mem h.head bs 0
  apart : header.seg.Apart bs
  fits : ∀ b ∈ bs, Fits b
  tiles : ∀ x, header.seg.Holds bs x () ↔ h.InRegions x
  total : header.total bs = h.bound
  ne_nil : bs ≠ []

section
variable (hr : h.Repr bs)
include hr

lemma Repr.length_le : bs.length ≤ h.bound :=
  hr.total ▸ HeaderKind.length_le_total bs

lemma Repr.with_mem (hm : Linked m h.head bs 0) : ({ h with mem := m } : Heap).Repr bs :=
  ⟨hm, hr.apart, hr.fits, hr.tiles, hr.total, hr.ne_nil⟩

/-- The blocks recut, in other memory. -/
lemma Repr.recut (hc : header.Recut bs bs') (hm : Linked m h.head bs' 0) (hfits : ∀ b ∈ bs', Fits b) :
    ({ h with mem := m } : Heap).Repr bs' := by
  refine ⟨hm, hc.apart_self hr.apart, hfits, fun x => (hc.holds x).trans (hr.tiles x),
    hc.total.trans hr.total, ?_⟩
  rintro rfl
  -- no block, no byte; but there was one
  have h0 : header.total bs = 0 := hc.total.symm
  have hlen := HeaderKind.length_le_total (K := header) bs
  rw [h0] at hlen
  exact hr.ne_nil (length_eq_zero_iff.mp (Nat.le_zero.mp hlen))

/-! ## The search -/

/-- No free block is large enough. -/
def NoFit (bs : List Block) (n : Nat) : Prop := ∀ b ∈ bs, b.free = true → b.size < n
deriving Decidable

/-- **First fit**: null if no block fits, otherwise a free block that is large enough. -/
lemma firstFit_cases (n : Nat) :
    (h.firstFit n = 0 ∧ NoFit bs n) ∨ ∃ l b r, bs = l ++ b :: r ∧ b.free = true ∧ n ≤ b.size ∧
      h.firstFit n = b.addr := by
  refine HeaderKind.first_fit hr.linked.path rfl (fun b hb => ?_) hr.length_le
  obtain ⟨nx, hshow⟩ := hr.linked.header_mem hb
  have hne := (hr.fits b hb).ne_zero
  cases hfree : b.free <;> simp [hshow.isFree, hshow.size, hne, hfree]

end

/-! ## Changing some blocks -/

/-- Some neighbouring blocks are rewritten in place. -/
lemma Repr.rewrite {mid' : List Block} (mid : List Block) (hr : h.Repr (l ++ (mid ++ r)))
    (hc : header.Recut mid mid') (hfits : ∀ b ∈ mid', Fits b)
    (hm : ∀ x, (∀ y ∈ mid, ¬ header.seg.Covers y x) → m x = h.mem x)
    (hlink : ∀ p q, Linked h.mem p mid q → Linked m p mid' q) :
    ({ h with mem := m } : Heap).Repr (l ++ (mid' ++ r)) := by
  obtain ⟨p, hl, hrest⟩ := linked_append.mp hr.linked
  obtain ⟨q, hmid, hrr⟩ := linked_append.mp hrest
  have hapart := pairwise_append.mp hr.apart
  have hapart' := pairwise_append.mp hapart.2.1
  refine hr.recut (hc.around l r) ?_ ?_
  · refine linked_append.mpr ⟨p, ?_, linked_append.mpr ⟨q, hlink p q hmid, ?_⟩⟩
    · exact hl.keep mid (fun c hc y hy => hapart.2.2 c hc y (mem_append_left r hy)) hm
    · exact hrr.keep mid (fun c hc y hy => (hapart'.2.2 y hy c hc).symm) hm
  intro b hb
  rcases mem_append.mp hb with hb | hb
  · exact hr.fits b (mem_append_left _ hb)
  · rcases mem_append.mp hb with hb | hb
    · exact hfits b hb
    · exact hr.fits b (mem_append_right _ (mem_append_right _ hb))

lemma not_covers_singleton (h : ∀ y ∈ [b], ¬ header.seg.Covers y x) :
    ¬ header.seg.Covers b x := h b (mem_singleton_self b)

/-- **A block is handed out.** -/
lemma Repr.take (hr : h.Repr (l ++ b :: r)) (hn : n ≤ b.size) (hal : n % 16 = 0) :
    ({ h with mem := takeBlock h.mem b.addr n } : Heap).Repr (l ++ (taken b n ++ r)) := by
  have hmem : b ∈ l ++ b :: r := mem_append_right l mem_cons_self
  have hfit := hr.fits b hmem
  obtain ⟨nx, hb⟩ := hr.linked.header_mem hmem
  refine Repr.rewrite [b] hr (taken_recut b n) (taken_fits hfit hal)
    (fun x hx => takeBlock_outside hb.size (not_covers_singleton hx)) fun p q hlink => ?_
  obtain ⟨rfl, nx', hb', hnil⟩ := linked_cons.mp hlink
  rw [← linked_nil.mp hnil]
  exact takeBlock_linked hb' hfit hn

lemma markFree_outside (hx : ¬ header.seg.Covers b x) : markFree m b.addr x = m x := by
  have hx : ¬ (b.addr ≤ x ∧ x < b.addr + 32 + b.size) := hx
  rw [markFree, setMagic, setIsFree, Bytes.store_outside (by omega), Bytes.store_outside (by omega)]

lemma header_markFree (hb : Header m b n) : Header (markFree m b.addr) { b with free := true } n := by
  have hmagic : blockMagicFree < 256 ^ 4 := by decide
  have hsize : m.load b.addr 8 = b.size := hb.size
  have hnext : m.load (b.addr + 16) 8 = n := hb.next
  constructor <;> simp only [size, magic, isFree, next, markFree, setMagic, setIsFree] <;>
    simp (disch := omega) only [Bytes.load_store_of_apart, Bytes.load_store, hsize, hnext, if_true]

lemma blockOf_add {a : Nat} (h : a < 2 ^ 64) : blockOf (a + 32) = a := by
  rw [blockOf, show a + 32 + (2 ^ 64 - 32) = a + 2 ^ 64 by omega, Nat.add_mod_right, Nat.mod_eq_of_lt h]

/-- **A block in use is freed**: it is marked, and the pass merges what can be merged. Of the magic
numbers only that of the block changes. -/
lemma Repr.kfree (hr : h.Repr (l ++ b :: r)) (hfree : b.free = false) :
    (h.kfree (b.addr + 32)).Repr (coalesceList (l ++ { b with free := true } :: r)) ∧
      (h.kfree (b.addr + 32)).regions = h.regions ∧
      ∀ c, c % 16 = 0 → magic (h.kfree (b.addr + 32)).mem c =
        if c = b.addr then blockMagicFree else magic h.mem c := by
  have hmem : b ∈ l ++ b :: r := mem_append_right l mem_cons_self
  have hfit := hr.fits b hmem
  obtain ⟨nx, hb⟩ := hr.linked.header_mem hmem
  have hbelow := hfit.below
  have hblock : blockOf (b.addr + 32) = b.addr := blockOf_add (by omega)
  have hin : h.addrInAnyRegion b.addr = true := by
    have hcov : header.seg.Covers b b.addr := by
      show b.addr ≤ b.addr ∧ b.addr < b.addr + 32 + b.size
      omega
    obtain ⟨reg, hreg, hlo, hhi⟩ := (hr.tiles b.addr).mp ⟨b, hmem, hcov, rfl⟩
    exact any_eq_true.mpr ⟨reg, hreg, decide_eq_true ⟨hlo, hhi⟩⟩
  have hmagic : magic h.mem b.addr = blockMagicAlloc := hb.magic.trans (by rw [hfree]; rfl)
  have hflag : isFree h.mem b.addr = 0 := hb.isFree.trans (by rw [hfree]; rfl)
  have hcode : h.kfree (b.addr + 32) =
      { h with mem := coalesce h.bound (h.bound + 1) (markFree h.mem b.addr) h.head } := by
    rw [Heap.kfree, if_neg (by omega), hblock, if_neg (by rw [hin]; decide),
      if_neg (not_not.mpr hmagic), if_neg (not_not.mpr hflag)]
  rw [hcode]
  -- the marked list, then the pass
  have hmarked : ({ h with mem := markFree h.mem b.addr } : Heap).Repr
      (l ++ ([{ b with free := true }] ++ r)) := by
    refine Repr.rewrite [b] hr (HeaderKind.recut_flag b true) ?_
      (fun x hx => markFree_outside (not_covers_singleton hx)) fun p q hlink => ?_
    · intro c hc
      obtain rfl := mem_singleton.mp hc
      exact ⟨hfit.ne_zero, hfit.aligned, hfit.size_aligned, hfit.below⟩
    · obtain ⟨rfl, nx', hb', hnil⟩ := linked_cons.mp hlink
      exact linked_cons.mpr ⟨rfl, nx', header_markFree hb', hnil⟩
  have hlen := hmarked.length_le
  obtain ⟨h1, h2⟩ := coalesce_linked hmarked.linked hmarked.apart hmarked.fits hlen
    (Nat.lt_succ_of_le hlen)
  refine ⟨?_, rfl, fun c hc => ?_⟩
  swap
  · have hlane : magic (coalesce h.bound (h.bound + 1) (markFree h.mem b.addr) h.head) c =
        magic (markFree h.mem b.addr) c :=
      Bytes.load_congr fun x hlo hhi => h2 x fun _ => ⟨by omega, by omega⟩
    have hal := hfit.aligned
    refine hlane.trans ?_
    split_ifs with heq
    · rw [heq]
      exact (header_markFree hb).magic
    · rw [magic, markFree, setMagic, setIsFree, Bytes.load_store_of_apart (by omega),
        Bytes.load_store_of_apart (by omega), ← magic]
  have hlist : l ++ ([{ b with free := true }] ++ r) = l ++ { b with free := true } :: r := rfl
  rw [hlist] at hmarked h1
  exact hmarked.recut (coalesceList_keeps (keeps_recut _) (.refl _)) h1
    (coalesceList_keeps keeps_fits hmarked.fits)

/-! ## Growing -/

/-- What the page allocator may hand out: page-aligned memory that belongs to no region. -/
def Fresh (regions : List (Nat × Nat)) (phys bytes : Nat) : Prop :=
  phys % 4096 = 0 ∧ phys + bytes ≤ 2 ^ 47 ∧
    ∀ r ∈ regions, physToVirt phys + bytes ≤ r.1 ∨ r.1 + r.2 ≤ physToVirt phys

lemma expandBytes_bounds (n : Nat) : expandBytes n % 4096 = 0 ∧ 64 * 4096 ≤ expandBytes n := by
  unfold expandBytes
  dsimp only
  split
  · decide
  · omega

/-- The block of a new region. -/
def newBlock (phys bytes : Nat) : Block := ⟨physToVirt phys, bytes - 32, true⟩

lemma newBlock_fits {regions : List (Nat × Nat)} (hf : Fresh regions phys bytes)
    (hb : bytes % 4096 = 0) (h32 : 32 ≤ bytes) : Fits (newBlock phys bytes) := by
  obtain ⟨hal, hlt, -⟩ := hf
  refine ⟨?_, ?_, ?_, ?_⟩
  · show 0xFFFF000000000000 + phys ≠ 0
    omega
  · show (0xFFFF000000000000 + phys) % 16 = 0
    omega
  · show (bytes - 32) % 16 = 0
    omega
  · show 0xFFFF000000000000 + phys + 32 + (bytes - 32) < 2 ^ 64
    omega

lemma newBlock_covers (h32 : 32 ≤ bytes) :
    header.seg.Covers (newBlock phys bytes) x ↔ physToVirt phys ≤ x ∧ x < physToVirt phys + bytes := by
  show physToVirt phys ≤ x ∧ x < physToVirt phys + 32 + (bytes - 32) ↔ _
  omega

/-- Fresh memory is apart from all blocks. -/
lemma Repr.newBlock_apart (hr : h.Repr bs) (hf : Fresh h.regions phys bytes) (h32 : 32 ≤ bytes) :
    ∀ c ∈ bs, header.stop c ≤ (newBlock phys bytes).addr ∨
      header.stop (newBlock phys bytes) ≤ c.addr := by
  intro c hc
  by_contra hmeet
  have hstop : header.stop (newBlock phys bytes) = physToVirt phys + 32 + (bytes - 32) := rfl
  have hstopc := stop_eq c
  have haddr : (newBlock phys bytes).addr = physToVirt phys := rfl
  -- the larger of the two starts would belong to both
  have hx : header.seg.Covers c (max c.addr (physToVirt phys)) := by
    show c.addr ≤ max c.addr (physToVirt phys) ∧ max c.addr (physToVirt phys) < c.addr + 32 + c.size
    omega
  obtain ⟨reg, hreg, hlo, hhi⟩ := (hr.tiles _).mp ⟨c, hc, hx, rfl⟩
  have hapart := hf.2.2 reg hreg
  omega

lemma header_setNext (hb : Header m b n) (hv : v < 2 ^ 64) : Header (setNext m b.addr v) b v := by
  have hsize : m.load b.addr 8 = b.size := hb.size
  refine ⟨?_, ?_, ?_, Bytes.load_store _ _ _ hv⟩
  · simp only [size, setNext]
    simp (disch := omega) only [Bytes.load_store_of_apart, hsize]
  · rw [← hb.magic]
    exact Bytes.load_store_of_apart (by omega)
  · rw [← hb.isFree]
    exact Bytes.load_store_of_apart (by omega)

/-- The link of the last block is replaced. -/
lemma Linked.set_last {p q : Nat} (h : Linked m p (l ++ [t]) q)
    (hapart : header.seg.Apart (l ++ [t])) (hv : v < 2 ^ 64) :
    Linked (setNext m t.addr v) p (l ++ [t]) v := by
  obtain ⟨a, hl, ht⟩ := linked_append.mp h
  obtain ⟨rfl, n, hb, -⟩ := linked_cons.mp ht
  refine linked_append.mpr ⟨t.addr, ?_, linked_cons.mpr ⟨rfl, v, header_setNext hb hv,
    linked_nil.mpr rfl⟩⟩
  refine hl.keep [t] (fun c hc y hy => (pairwise_append.mp hapart).2.2 c hc y hy) fun x hx => ?_
  have hx : ¬ (t.addr ≤ x ∧ x < t.addr + 32 + t.size) := not_covers_singleton hx
  rw [setNext, Bytes.store_outside (by omega)]

/-- The loop to the end of the list. -/
lemma tail_eq (hlink : Linked m h.head (l ++ [t]) 0) (hfits : ∀ b ∈ l ++ [t], Fits b)
    (hlen : l.length ≤ h.bound) : h.tail m = t.addr := by
  obtain ⟨a, hl, ht⟩ := linked_append.mp hlink
  obtain ⟨rfl, n, hb, hnil⟩ := linked_cons.mp ht
  have hlast : next m t.addr = 0 := hb.next.trans (linked_nil.mp hnil)
  have hpath := hl.path
  rw [tail, walk_eq_find hpath (by simpa using hlast) (by rwa [length_map])]
  rw [find?_eq_none.mpr]
  · rfl
  -- every block before the last links to a block
  intro p hp
  have hne : next m p ≠ 0 := by
    rcases hpath.next_mem hp with hmem | heq
    · obtain ⟨c, hc, heq⟩ := mem_map.mp hmem
      rw [← heq]
      exact (hfits c (mem_append_left _ hc)).ne_zero
    · rw [heq]
      exact (hfits t (mem_append_right _ (mem_singleton_self t))).ne_zero
  simpa using hne

/-- No magic number of a block in use appears at `c`. -/
def Tame (m m' : Bytes) (c : Nat) : Prop := magic m' c = blockMagicAlloc → magic m c = blockMagicAlloc

lemma takeBlock_tame {cur : Nat} (hcur : cur % 16 = 0) (hn : n % 16 = 0) (hc : c % 16 = 0)
    (hne : c ≠ cur) : Tame m (takeBlock m cur n) c := by
  simp only [Tame, takeBlock, magic, setMagic, setIsFree, setNext, setSize]
  rw [Bytes.load_store_of_apart (by omega), Bytes.load_store_of_apart (by omega)]
  split
  · rw [Bytes.load_store_of_apart (by omega), Bytes.load_store_of_apart (by omega),
      Bytes.load_store_of_apart (by omega)]
    by_cases heq : c = cur + 32 + n
    · -- the header of the rest
      rw [heq, Bytes.load_store _ _ _ (by decide)]
      exact fun h => absurd h (by decide)
    · simp (disch := omega) only [Bytes.load_store_of_apart]
      exact id
  · exact id

lemma newRegion_tame (hva : phys % 4096 = 0) (hb : bytes % 4096 = 0) (hc : c % 16 = 0) :
    Tame m (writeFree (m.fill (physToVirt phys) bytes 0) (physToVirt phys) (bytes - 32) 0) c := by
  have hal : physToVirt phys % 4096 = 0 := by
    unfold physToVirt
    omega
  simp only [Tame, writeFree, magic, setMagic, setIsFree, setNext, setSize]
  rw [Bytes.load_store_of_apart (by omega)]
  by_cases heq : c = physToVirt phys
  · rw [heq, Bytes.load_store _ _ _ (by decide)]
    exact fun h => absurd h (by decide)
  simp (disch := omega) only [Bytes.load_store_of_apart]
  by_cases hin : physToVirt phys ≤ c ∧ c < physToVirt phys + bytes
  · -- the first byte is not that of the number
    rw [Bytes.load, Bytes.fill_inside (by omega) (by omega)]
    intro h
    exact absurd (congrArg (· % 256) h) (by simp [blockMagicAlloc])
  · rw [Bytes.load_congr fun x hlo hhi => Bytes.fill_outside (by omega)]
    exact id

/-- The blocks in use are the same. -/
def SameLive (bs bs' : List Block) : Prop := ∀ c : Block, c.free = false → (c ∈ bs' ↔ c ∈ bs)

/-- Every block ends where the next one of the list starts, or at one of the given ends. -/
def Ends (E : Nat → Prop) : List Block → Prop
  | [] => True
  | b :: bs => (E (header.stop b) ∨ ∃ c ∈ bs.head?, header.stop b = c.addr) ∧ Ends E bs

lemma Ends.append {E' : Nat → Prop} (hE : ∀ x, E x → E' x) (h : Ends E l) (hr : Ends E' r) :
    Ends E' (l ++ r) := by
  induction l with
  | nil => exact hr
  | cons b l ih =>
    refine ⟨h.1.imp (hE _) ?_, ih h.2⟩
    rintro ⟨c, hc, hstop⟩
    cases l with
    | nil => cases hc
    | cons _ _ => exact ⟨c, hc, hstop⟩

/-- The end of the list is replaced by blocks that start at the same place. -/
lemma Ends.replace {c : Block} (h : Ends E (l ++ b :: r)) (haddr : c.addr = b.addr)
    (hr : Ends E (b :: r) → Ends E (c :: bs)) : Ends E (l ++ c :: bs) := by
  induction l with
  | nil => exact hr h
  | cons d l ih =>
    refine ⟨h.1.imp_right ?_, ih h.2⟩
    cases l with
    | nil =>
      rintro ⟨_, ⟨⟩, hstop⟩
      exact ⟨c, rfl, hstop.trans haddr.symm⟩
    | cons _ _ => exact id

lemma ends_keeps (E : Nat → Prop) : Keeps (Ends E) := fun l r a b hm h => by
  refine h.replace rfl fun hab => ⟨?_, hab.2.2⟩
  have hadj : a.addr + 32 + a.size = b.addr := hm.2.2
  have hstop : header.stop (join a b) = header.stop b := by
    show a.addr + 32 + (a.size + (32 + b.size)) = b.addr + 32 + b.size
    omega
  rw [hstop]
  exact hab.2.1

lemma Ends.take (h : Ends E (l ++ b :: r)) : Ends E (l ++ (taken b n ++ r)) := by
  unfold taken
  split
  · refine h.replace rfl fun hb => ⟨.inr ⟨_, rfl, rfl⟩, ?_⟩
    have hstop : header.stop ⟨b.addr + 32 + n, b.size - n - 32, true⟩ = header.stop b := by
      show b.addr + 32 + n + 32 + (b.size - n - 32) = b.addr + 32 + b.size
      omega
    exact ⟨hstop ▸ hb.1, hb.2⟩
  · exact h.replace rfl id

/-- Regions do not overlap, and blocks end where the next one starts or a region ends. -/
structure Tidy (h : Heap) (bs : List Block) : Prop where
  pos : ∀ r ∈ h.regions, 0 < r.2
  apart : h.regions.Pairwise fun r s => r.1 + r.2 ≤ s.1 ∨ s.1 + s.2 ≤ r.1
  ends : Ends (fun x => ∃ r ∈ h.regions, r.1 + r.2 = x) bs

/-- What growth does to the blocks in use, the order of the list and the magic numbers. -/
structure Grew (h : Heap) (bs : List Block) (g : Heap) (bs' : List Block) : Prop where
  live : SameLive bs bs'
  tidy : h.Tidy bs → g.Tidy bs'
  tame : ∀ c, c % 16 = 0 → Tame h.mem g.mem c

lemma Grew.refl (h : Heap) (bs : List Block) : Grew h bs h bs :=
  ⟨fun _ _ => Iff.rfl, id, fun _ _ => id⟩

lemma Grew.trans {h' h'' : Heap} {bs'' : List Block} (hg : Grew h bs h' bs')
    (hg' : Grew h' bs' h'' bs'') : Grew h bs h'' bs'' :=
  ⟨fun c hc => (hg'.live c hc).trans (hg.live c hc), hg'.tidy ∘ hg.tidy,
    fun c hc => hg.tame c hc ∘ hg'.tame c hc⟩

/-- **Growth** adds one free block at the end, or nothing. -/
lemma heapExpand_cases (hr : h.Repr bs) {a : Option Nat}
    (ha : ∀ phys ∈ a, Fresh h.regions phys (expandBytes n)) :
    ∃ g : Heap, ((a = none ∨ 16 ≤ h.regions.length) ∧ h.heapExpand n a = (false, g) ∧ g.Repr bs ∧
        g.regions = h.regions ∧ Grew h bs g bs) ∨
      ∃ phys, a = some phys ∧ h.regions.length < 16 ∧ h.heapExpand n a = (true, g) ∧
        g.regions = h.regions ++ [(physToVirt phys, expandBytes n)] ∧
        g.Repr (bs ++ [newBlock phys (expandBytes n)]) ∧
        Grew h bs g (bs ++ [newBlock phys (expandBytes n)]) := by
  cases a with
  | none => exact ⟨h, .inl ⟨.inl rfl, rfl, hr, rfl, .refl h bs⟩⟩
  | some phys =>
    have hf := ha phys rfl
    obtain ⟨hmod, hlow⟩ := expandBytes_bounds n
    rw [heapExpand]
    revert hf hmod hlow
    generalize expandBytes n = bytes
    intro hf hmod hlow
    have h32 : 32 ≤ bytes := by omega
    have hfit := newBlock_fits hf hmod h32
    have hapart := hr.newBlock_apart hf h32
    have hva : physToVirt phys < 2 ^ 64 := by
      have := hfit.below
      have haddr : (newBlock phys bytes).addr = physToVirt phys := rfl
      omega
    -- the new header is written outside all blocks
    have hnew : Header (writeFree (h.mem.fill (physToVirt phys) bytes 0) (physToVirt phys)
        (bytes - 32) 0) (newBlock phys bytes) 0 := by
      have hsize : bytes - 32 < 2 ^ 64 := by
        have := hf.2.1
        omega
      exact header_writeFree (b := newBlock phys bytes) rfl hsize (by decide)
    have hold : Linked (writeFree (h.mem.fill (physToVirt phys) bytes 0) (physToVirt phys)
        (bytes - 32) 0) h.head bs 0 := by
      refine hr.linked.keep [newBlock phys bytes] ?_ fun x hx => ?_
      · intro c hc y hy
        obtain rfl := mem_singleton.mp hy
        exact hapart c hc
      · have hx : ¬ (physToVirt phys ≤ x ∧ x < physToVirt phys + bytes) := fun hin =>
          not_covers_singleton hx ((newBlock_covers h32).mpr hin)
        rw [writeFree_outside (by omega), Bytes.fill_outside (by omega)]
    obtain ⟨l, t, rfl⟩ : ∃ l t, bs = l ++ [t] :=
      ⟨bs.dropLast, bs.getLast hr.ne_nil, (dropLast_append_getLast hr.ne_nil).symm⟩
    have hlen : l.length ≤ h.bound := by
      have := hr.length_le
      rw [length_append] at this
      omega
    rw [tail_eq hold hr.fits hlen]
    have hlinked := hold.set_last hr.apart hva
    have htal := (hr.fits t (mem_append_right _ (mem_singleton_self t))).aligned
    have hlink : ∀ (m : Bytes) c v, c % 16 = 0 → magic (setNext m t.addr v) c = magic m c :=
      fun m c v hc => Bytes.load_store_of_apart (by omega)
    split_ifs with hfull
    · -- the table is full: the link is undone
      refine ⟨_, .inl ⟨.inr hfull, rfl, hr.with_mem (hlinked.set_last hr.apart (by decide)), rfl,
        fun _ _ => Iff.rfl, fun ht => ⟨ht.pos, ht.apart, ht.ends⟩, fun c hc => ?_⟩⟩
      rw [Tame, hlink _ c _ hc, hlink _ c _ hc]
      exact newRegion_tame hf.1 hmod hc
    refine ⟨_, .inr ⟨phys, rfl, Nat.lt_of_not_le hfull, rfl, rfl,
      ⟨?_, ?_, ?_, fun x => ?_, ?_, by simp⟩, fun c hc => ?_, fun ht => ⟨?_, ?_, ?_⟩, fun c hc => ?_⟩⟩
    · refine linked_append.mpr ⟨physToVirt phys, hlinked, linked_cons.mpr ⟨rfl, 0, ?_,
        linked_nil.mpr rfl⟩⟩
      refine hnew.keep fun x hlo hhi => ?_
      have htail := hapart t (mem_append_right _ (mem_singleton_self t))
      have hstop := stop_eq t
      have hstop' := stop_eq (newBlock phys bytes)
      exact Bytes.store_outside (by omega)
    · refine pairwise_append.mpr ⟨hr.apart, pairwise_singleton _ _, ?_⟩
      intro c hc y hy
      obtain rfl := mem_singleton.mp hy
      exact hapart c hc
    · intro b hb
      rcases mem_append.mp hb with hb | hb
      · exact hr.fits b hb
      · obtain rfl := mem_singleton.mp hb
        exact hfit
    · rw [HeaderKind.holds_append, hr.tiles]
      constructor
      · rintro (⟨reg, hreg, hin⟩ | ⟨c, hc, hcov, -⟩)
        · exact ⟨reg, mem_append_left _ hreg, hin⟩
        · obtain rfl := mem_singleton.mp hc
          exact ⟨_, mem_append_right _ (mem_singleton_self _), (newBlock_covers h32).mp hcov⟩
      rintro ⟨reg, hreg, hin⟩
      rcases mem_append.mp hreg with hreg | hreg
      · exact .inl ⟨reg, hreg, hin⟩
      · obtain rfl := mem_singleton.mp hreg
        exact .inr ⟨_, mem_singleton_self _, (newBlock_covers h32).mpr hin, rfl⟩
    · rw [HeaderKind.total_append, hr.total]
      show h.bound + (32 + (bytes - 32) + 0) =
        ((h.regions ++ [(physToVirt phys, bytes)]).map Prod.snd).sum
      rw [map_append, sum_append, ← bound]
      simp only [map_cons, map_nil, sum_cons, sum_nil]
      omega
    · rw [mem_append, mem_singleton]
      refine ⟨fun hin => hin.resolve_right ?_, .inl⟩
      rintro rfl
      cases hc
    · rw [forall_mem_append]
      exact ⟨ht.pos, fun r hreg => by rw [mem_singleton.mp hreg]; exact lt_of_lt_of_le (by decide) h32⟩
    · refine pairwise_append.mpr ⟨ht.apart, pairwise_singleton _ _, fun r hreg s hs => ?_⟩
      obtain rfl := mem_singleton.mp hs
      exact (hf.2.2 r hreg).symm
    · refine ht.ends.append (fun x ⟨r, hreg, hx⟩ => ⟨r, mem_append_left _ hreg, hx⟩)
        ⟨.inl ⟨_, mem_append_right _ (mem_singleton_self _), ?_⟩, trivial⟩
      show physToVirt phys + bytes = physToVirt phys + 32 + (bytes - 32)
      omega
    · rw [Tame, hlink _ c _ hc]
      exact newRegion_tame hf.1 hmod hc

/-! ## A whole request -/

/-- What the page allocator may answer to the attempts of one request. -/
def AnswersOk (n : Nat) : List (Option Nat) → List (Nat × Nat) → Prop
  | [], _ => True
  | none :: as, regions => AnswersOk n as regions
  | some phys :: as, regions =>
    Fresh regions phys (expandBytes n) ∧
      AnswersOk n as (regions ++ [(physToVirt phys, expandBytes n)])

/-- **A request** lets the heap grow, and then hands out one block of the list or none. -/
lemma attempts_cases {as : List (Option Nat)} (hr : h.Repr bs) (ha : AnswersOk n as h.regions) :
    ∃ g bs', g.Repr bs' ∧ Grew h bs g bs' ∧ (attempts n as h = (0, g) ∨
      ∃ l b r, bs' = l ++ b :: r ∧ b.free = true ∧ n ≤ b.size ∧
        attempts n as h = (b.addr + 32, { g with mem := takeBlock g.mem b.addr n })) := by
  induction as generalizing h bs with
  | nil => exact ⟨h, bs, hr, .refl h bs, .inl rfl⟩
  | cons a as ih =>
    rw [attempts]
    rcases firstFit_cases hr n with ⟨hzero, -⟩ | ⟨l, b, r, hsplit, hfree, hn, hfit⟩
    · rw [if_neg (not_not.mpr hzero)]
      have hfresh : ∀ phys ∈ a, Fresh h.regions phys (expandBytes n) := by
        rintro phys rfl
        exact ha.1
      obtain ⟨h', ⟨-, hno, hr', -, hg⟩ | ⟨phys, rfl, -, hyes, hregions, hr', hg⟩⟩ :=
        heapExpand_cases hr hfresh
      · rw [hno]
        exact ⟨h', bs, hr', hg, .inl rfl⟩
      rw [hyes]
      obtain ⟨g, bs', hrep, hg', hrest⟩ := ih hr' (hregions ▸ ha.2)
      exact ⟨g, bs', hrep, hg.trans hg', hrest⟩
    · have hb := hr.fits b (by rw [hsplit]; exact mem_append_right l mem_cons_self)
      rw [hfit, if_pos hb.ne_zero]
      exact ⟨h, bs, hr, .refl h bs, .inr ⟨l, b, r, hsplit, hfree, hn, rfl⟩⟩

/-! ## Refusals -/

/-- The request with its header, rounded up to pages, passes 64 bits, although the check at the start
of `kmalloc` lets it through. -/
def Wraps (n : Nat) : Prop := n ≤ 2 ^ 64 - 16 ∧ 2 ^ 64 ≤ alignUp n + 4127

/-- If null is returned, the blocks and regions are those there were, and for a request of at least one
byte no free block fits and a growth by its pages is not possible. -/
def RefusesRightly (h : Heap) (bs : List Block) (n : Nat) (first : Option Nat) (r : Nat × Heap) :
    Prop :=
  r.1 = 0 → r.2.Repr bs ∧ r.2.regions = h.regions ∧ (n ≠ 0 → NoFit bs n ∧
    (first = none ∨ 16 ≤ h.regions.length ∨ 2 ^ 64 ≤ alignUp n + 4127))

lemma heapExpand_regions (h : Heap) (n : Nat) (a : Option Nat) :
    h.regions.length ≤ (h.heapExpand n a).2.regions.length := by
  cases a with
  | none => exact le_rfl
  | some phys =>
    rw [heapExpand]
    split
    · exact le_rfl
    · simp

/-- Blocks too small for the rounded request are too small for the request. -/
lemma NoFit.request (hr : h.Repr bs) (hno : NoFit bs (alignUp n)) : NoFit bs n := by
  intro b hb hfree
  have hlt := hno b hb hfree
  have hal := (hr.fits b hb).size_aligned
  unfold alignUp at hlt
  omega

end Heap

/-! ## Runs -/

/-- The heap, and the pointers in use with the sizes that were asked for. -/
structure HeapRun where
  heap : Heap
  live : List (Nat × Nat)

/-- A request with the answers of the page allocator, a release, or a store into a payload. -/
inductive HeapOp
  | kmalloc (n : Nat) (first second : Option Nat)
  | kfree (ptr : Nat)
  | write (a : Nat) (v : UInt8)

namespace HeapRun
open Heap

section
variable (s : HeapRun)

def step : HeapOp → HeapRun
  | .kmalloc n first second =>
    let r := s.heap.kmalloc n first second
    ⟨r.2, if r.1 = 0 then s.live else (r.1, n) :: s.live⟩
  | .kfree ptr => ⟨s.heap.kfree ptr, s.live.filter fun e => e.1 ≠ ptr⟩
  | .write a v => { s with heap := { s.heap with mem := update s.heap.mem a v } }

/-- The page allocator hands out fresh memory; a released pointer is null, in use, or refused by the
checks of `kfree`; stores stay inside what was asked for. -/
def Allowed : HeapOp → Prop
  | .kmalloc n first second => n < 2 ^ 64 ∧ AnswersOk (alignUp n) [first, second] s.heap.regions
  | .kfree ptr => ptr = 0 ∨ ptr ∈ s.live.map Prod.fst ∨
      s.heap.addrInAnyRegion (blockOf ptr) = false ∨ magic s.heap.mem (blockOf ptr) ≠ blockMagicAlloc
  | .write a _ => ∃ e ∈ s.live, e.1 ≤ a ∧ a < e.1 + e.2

/-- After `heap_init`. -/
def Start : Prop :=
  ∃ m phys, Fresh [] phys (256 * 4096) ∧ s = ⟨heapInit m phys, []⟩

/-- What holds between operations. -/
def Inv : Prop := ∃ bs, s.heap.Repr bs ∧ header.Owns bs s.live

end

/-- The blocks of a state, with what is known of their order. -/
structure Tracks (s : HeapRun) (bs : List Block) : Prop where
  repr : s.heap.Repr bs
  owns : header.Owns bs s.live
  tidy : s.heap.Tidy bs

lemma mem_taken {c : Block} (hc : c.free = false) :
    c ∈ taken b n ↔ c = ⟨b.addr, if 32 + 32 < b.size - n then n else b.size, false⟩ := by
  unfold taken
  split
  · rw [mem_cons, mem_singleton]
    constructor
    · rintro (h | rfl)
      · exact h
      · cases hc
    · exact .inl
  · rw [mem_singleton]

lemma alignUp_le (n : Nat) : n ≤ alignUp n ∧ alignUp n % 16 = 0 := by
  unfold alignUp
  omega

/-- The pointers in use after a block was handed out. -/
lemma owns_take {k : Nat} (h : header.Owns (l ++ b :: r) live)
    (hapart : header.seg.Apart (l ++ b :: r)) (hfree : b.free = true) (hk : k ≤ n) (hn : n ≤ b.size) :
    header.Owns (l ++ (taken b n ++ r)) ((b.addr + 32, k) :: live) := by
  have hbmem : b ∈ l ++ b :: r := mem_append_right l mem_cons_self
  refine h.alloc (c := ⟨b.addr, if 32 + 32 < b.size - n then n else b.size, false⟩) rfl ?_ ?_ ?_
  · exact @HeaderKind.fresh_of_free b _ _ hapart hbmem hfree
  · intro c hc
    have hne : c ≠ b := Block.ne_of_free hc hfree
    simp only [mem_append, mem_cons, mem_taken hc]
    tauto
  · dsimp only
    split <;> omega

/-- The pointers in use after a block was freed. -/
lemma owns_free (h : header.Owns (l ++ b :: r) live) (hapart : header.seg.Apart (l ++ b :: r)) :
    header.Owns (coalesceList (l ++ { b with free := true } :: r))
      (live.filter fun e => e.1 ≠ b.addr + 32) := by
  refine h.release hapart (mem_append_right l mem_cons_self) fun c hc => ?_
  have hne : c ≠ { b with free := true } := Block.ne_of_free hc rfl
  have hpass : c ∈ coalesceList (l ++ { b with free := true } :: r) ↔
      c ∈ l ++ { b with free := true } :: r := coalesceList_keeps (keeps_live hc _) Iff.rfl
  rw [hpass, ← HeaderKind.mem_rest hapart]
  simp only [mem_append, mem_cons, hne, false_or]

/-- One region that is a single free block. -/
lemma repr_single (hf : Fresh [] phys bytes) (h32 : 32 ≤ bytes) (hal : bytes % 4096 = 0) :
    (Heap.mk (writeFree m (physToVirt phys) (bytes - 32) 0) (physToVirt phys)
      [(physToVirt phys, bytes)]).Repr [newBlock phys bytes] := by
  have hfit := newBlock_fits hf hal h32
  have hsize : bytes - 32 < 2 ^ 64 := by
    have hb := hf.2.1
    omega
  refine ⟨?_, pairwise_singleton _ _, ?_, fun x => ?_, ?_, cons_ne_nil _ _⟩
  · refine linked_cons.mpr ⟨rfl, 0, ?_, linked_nil.mpr rfl⟩
    exact header_writeFree (b := newBlock phys bytes) rfl hsize (by decide)
  · intro b hb
    obtain rfl := mem_singleton.mp hb
    exact hfit
  · constructor
    · rintro ⟨c, hc, hcov, -⟩
      obtain rfl := mem_singleton.mp hc
      exact ⟨_, mem_singleton_self _, (newBlock_covers h32).mp hcov⟩
    · rintro ⟨reg, hreg, hin⟩
      obtain rfl := mem_singleton.mp hreg
      exact ⟨_, mem_singleton_self _, (newBlock_covers h32).mpr hin, rfl⟩
  · show 32 + (bytes - 32) + 0 = bytes + 0
    omega

lemma tracks_start {s : HeapRun} (h : s.Start) : ∃ bs, s.Tracks bs := by
  obtain ⟨m, phys, hf, rfl⟩ := h
  refine ⟨[newBlock phys (256 * 4096)], repr_single hf (by decide) (by decide),
    HeaderKind.Owns.nil.congr fun c hc => iff_of_false (fun hin => ?_) not_mem_nil, ?_,
    pairwise_singleton _ _, .inl ⟨_, mem_singleton_self _, ?_⟩, trivial⟩
  · obtain rfl := mem_singleton.mp hin
    cases hc
  · intro r hr
    rw [mem_singleton.mp hr]
    exact Nat.succ_pos 1048575
  · show physToVirt phys + 256 * 4096 = physToVirt phys + 32 + (256 * 4096 - 32)
    omega

/-- A pointer the checks refuse. -/
lemma kfree_refused (hp : ptr = 0 ∨ h.addrInAnyRegion (blockOf ptr) = false ∨
    magic h.mem (blockOf ptr) ≠ blockMagicAlloc) : h.kfree ptr = h := by
  unfold Heap.kfree
  split_ifs with h0
  · rfl
  rcases hp.resolve_left h0 with hout | hbad
  · rw [if_pos hout]
  · dsimp only
    rw [if_pos hbad, ite_self]

/-- `kmalloc` and `kfree` write the magic number of blocks in use at the headers of these only, and
take it away where a block is freed. -/
def Retires (s t : HeapRun) : Prop :=
  ∀ c, c % 16 = 0 → magic t.heap.mem c = blockMagicAlloc → c + 32 ∉ t.live.map Prod.fst →
    magic s.heap.mem c = blockMagicAlloc ∧ c + 32 ∉ s.live.map Prod.fst

lemma kmalloc_step {s : HeapRun} {first second : Option Nat} (h : s.Tracks bs)
    (ha : AnswersOk (alignUp n) [first, second] s.heap.regions) :
    (∃ bs', (s.step (.kmalloc n first second)).Tracks bs') ∧
      s.Retires (s.step (.kmalloc n first second)) := by
  obtain ⟨hr, ho, ht⟩ := h
  rw [step]
  unfold Heap.kmalloc
  split
  · exact ⟨⟨bs, hr, ho, ht⟩, fun c _ hm hn => ⟨hm, hn⟩⟩
  split
  · exact ⟨⟨bs, hr, ho, ht⟩, fun c _ hm hn => ⟨hm, hn⟩⟩
  obtain ⟨hle, hal⟩ := alignUp_le n
  obtain ⟨g, bs', hr', hg, heq | ⟨l, b, r, rfl, hfree, hn, heq⟩⟩ := attempts_cases hr ha
  · rw [heq]
    exact ⟨⟨bs', hr', ho.congr hg.live, hg.tidy ht⟩, fun c hc hm hn => ⟨hg.tame c hc hm, hn⟩⟩
  rw [heq]
  dsimp only
  rw [if_neg (Nat.succ_ne_zero _)]
  have hbal := (hr'.fits b (mem_append_right l mem_cons_self)).aligned
  obtain ⟨hpos, hapart, hends⟩ := hg.tidy ht
  refine ⟨⟨_, hr'.take hn hal, owns_take (ho.congr hg.live) hr'.apart hfree hle hn, hpos, hapart,
    hends.take⟩, fun c hc hm hnot => ?_⟩
  rw [map_cons, mem_cons, not_or] at hnot
  exact ⟨hg.tame c hc (takeBlock_tame hbal hal hc (by omega) hm), hnot.2⟩

lemma kfree_step {s : HeapRun} (h : s.Tracks bs) (ha : s.Allowed (.kfree ptr)) :
    (∃ bs', (s.step (.kfree ptr)).Tracks bs' ∧
        (ptr ∈ s.live.map Prod.fst → bs'.IsChain fun a b => ¬ Mergeable a b)) ∧
      s.Retires (s.step (.kfree ptr)) := by
  obtain ⟨hr, ho, ht⟩ := h
  rw [step]
  by_cases hlive : ptr ∈ s.live.map Prod.fst
  · obtain ⟨e, he, rfl⟩ := mem_map.mp hlive
    obtain ⟨b, hb, hf, hptr, -⟩ := ho.block e he
    obtain ⟨l, r, rfl⟩ := append_of_mem hb
    obtain ⟨hr', hregions, hmagic⟩ := hr.kfree hf
    rw [show e.1 = b.addr + 32 from hptr]
    refine ⟨⟨_, ⟨hr', owns_free ho hr.apart, ?_⟩, fun _ => coalesceList_done _⟩, fun c hc hm hnot => ?_⟩
    · refine ⟨hregions ▸ ht.pos, hregions ▸ ht.apart, ?_⟩
      rw [hregions]
      exact coalesceList_keeps (ends_keeps _) (ht.ends.replace rfl id)
    rw [hmagic c hc] at hm
    split_ifs at hm with heq
    · cases hm
    · refine ⟨hm, fun hin => hnot ?_⟩
      obtain ⟨e', he', hc'⟩ := mem_map.mp hin
      exact mem_map.mpr ⟨e', mem_filter.mpr ⟨he', by simpa [hc'] using heq⟩, hc'⟩
  -- nothing happens, and no entry has this pointer
  have href : ptr = 0 ∨ s.heap.addrInAnyRegion (blockOf ptr) = false ∨
      magic s.heap.mem (blockOf ptr) ≠ blockMagicAlloc := by
    rcases ha with h0 | hin | href
    · exact .inl h0
    · exact absurd hin hlive
    · exact .inr href
  rw [kfree_refused href, HeaderKind.filter_absent hlive]
  exact ⟨⟨bs, ⟨hr, ho, ht⟩, fun hin => absurd hin hlive⟩, fun c _ hm hn => ⟨hm, hn⟩⟩

lemma tracks_step {s : HeapRun} {op : HeapOp} (h : ∃ bs, s.Tracks bs) (ha : s.Allowed op) :
    ∃ bs, (s.step op).Tracks bs := by
  obtain ⟨bs, h⟩ := h
  cases op with
  | kmalloc n first second => exact (kmalloc_step h ha.2).1
  | kfree ptr =>
    obtain ⟨⟨bs', h', -⟩, -⟩ := kfree_step h ha
    exact ⟨bs', h'⟩
  | write a v =>
    obtain ⟨e, he, hlo, hhi⟩ := ha
    obtain ⟨before, last, hc⟩ := h.repr.linked
    exact ⟨bs, h.repr.with_mem ⟨before, last, h.owns.chain_write h.repr.apart hc he hlo hhi v⟩,
      h.owns, h.tidy.pos, h.tidy.apart, h.tidy.ends⟩

lemma reach_tracks {s : HeapRun} (h : Reach Start Allowed step s) : ∃ bs, s.Tracks bs :=
  Reach.invariant (fun s => ∃ bs, s.Tracks bs) (fun _ hs => tracks_start hs)
    (fun _ _ hi ha => tracks_step hi ha) h

/-! ## Soundness -/

/-- The state of the heap is sound: the list in memory tiles the registered regions, every magic number
agrees with its flag, and every payload in use is aligned, as large as was asked for, made of bytes of
the regions, and apart from all headers and from the other payloads in use. -/
structure Sound (s : HeapRun) (bs : List Block) : Prop where
  list : Path (next s.heap.mem) s.heap.head (bs.map Block.addr) 0
  sizes : ∀ b ∈ bs, size s.heap.mem b.addr = b.size
  agree : ∀ b ∈ bs,
    (magic s.heap.mem b.addr = blockMagicFree ∧ isFree s.heap.mem b.addr = 1) ∨
      (magic s.heap.mem b.addr = blockMagicAlloc ∧ isFree s.heap.mem b.addr = 0)
  covered : ∀ x, (∃ b ∈ bs, b.addr ≤ x ∧ x < b.addr + 32 + b.size) ↔ s.heap.InRegions x
  disjoint : bs.Pairwise fun a b => a.addr + 32 + a.size ≤ b.addr ∨ b.addr + 32 + b.size ≤ a.addr
  payload : ∀ e ∈ s.live, e.1 % 16 = 0 ∧
    ∃ b ∈ bs, isFree s.heap.mem b.addr = 0 ∧ e.1 = b.addr + 32 ∧ e.2 ≤ b.size
  inside : ∀ e ∈ s.live, ∀ x, e.1 ≤ x → x < e.1 + e.2 → s.heap.InRegions x
  headers : ∀ e ∈ s.live, ∀ b ∈ bs, e.1 + e.2 ≤ b.addr ∨ b.addr + 32 ≤ e.1
  apart : s.live.Pairwise fun e f => e.1 + e.2 ≤ f.1 ∨ f.1 + f.2 ≤ e.1

lemma Inv.sound {s : HeapRun} (h : s.Inv) : ∃ bs, s.Sound bs := by
  obtain ⟨bs, hr, ho⟩ := h
  refine ⟨bs, hr.linked.path, ?_, ?_, fun x => ?_, hr.apart, ?_, ?_,
    fun e he c hc => ho.headers hr.apart he hc, ho.apart hr.apart⟩
  · intro b hb
    obtain ⟨n, hn⟩ := hr.linked.header_mem hb
    exact hn.size
  · intro b hb
    obtain ⟨n, hn⟩ := hr.linked.header_mem hb
    rw [hn.magic, hn.isFree]
    cases b.free with
    | true => exact .inl ⟨rfl, rfl⟩
    | false => exact .inr ⟨rfl, rfl⟩
  · rw [← hr.tiles x]
    constructor
    · rintro ⟨b, hb, hx⟩
      exact ⟨b, hb, hx, rfl⟩
    · rintro ⟨b, hb, hx, -⟩
      exact ⟨b, hb, hx⟩
  · intro e he
    obtain ⟨b, hb, hf, hptr, hsize⟩ := ho.block e he
    obtain ⟨n, hn⟩ := hr.linked.header_mem hb
    have hal := (hr.fits b hb).aligned
    have hptr : e.1 = b.addr + 32 := hptr
    refine ⟨by omega, b, hb, ?_, hptr, hsize⟩
    rw [hn.isFree, hf]
    rfl
  intro e he x hlo hhi
  obtain ⟨b, hb, hf, hptr, hsize⟩ := ho.block e he
  have hptr : e.1 = b.addr + 32 := hptr
  refine (hr.tiles x).mp ⟨b, hb, ?_, rfl⟩
  show b.addr ≤ x ∧ x < b.addr + 32 + b.size
  omega

/-- **The kernel heap is sound in every run.** -/
theorem heap_sound {s : HeapRun} (h : Reach Start Allowed step s) : ∃ bs, s.Sound bs := by
  obtain ⟨bs, ht⟩ := reach_tracks h
  exact Inv.sound ⟨bs, ht.repr, ht.owns⟩

instance Fresh.decidable (regions : List (Nat × Nat)) (phys bytes : Nat) :
    Decidable (Fresh regions phys bytes) :=
  inferInstanceAs (Decidable (_ ∧ _ ∧ ∀ r ∈ regions, _))

instance AnswersOk.decidable (n : Nat) :
    (as : List (Option Nat)) → (regions : List (Nat × Nat)) → Decidable (AnswersOk n as regions)
  | [], _ => inferInstanceAs (Decidable True)
  | none :: as, regions => AnswersOk.decidable n as regions
  | some phys :: as, regions =>
    haveI := AnswersOk.decidable n as (regions ++ [(physToVirt phys, expandBytes n)])
    inferInstanceAs (Decidable (Fresh regions phys _ ∧ AnswersOk n as _))

instance Allowed.decidable (s : HeapRun) (op : HeapOp) : Decidable (s.Allowed op) :=
  match op with
  | .kmalloc .. | .kfree _ | .write .. => by dsimp only [Allowed]; infer_instance

/-- The heap at `0x40100000`, one megabyte long. -/
def booted : HeapRun := ⟨heapInit (fun _ => 0) 0x40100000, []⟩

lemma booted_start : booted.Start :=
  ⟨fun _ => 0, 0x40100000, by decide, rfl⟩

/-- A request the first region cannot serve, answered with the memory right behind it; a store into the
payload, a second request, and the release of the first. -/
def grownOps : List HeapOp :=
  [.kmalloc 1048560 (some 0x40200000) none, .write 0xFFFF000040200020 1, .kmalloc 100 none none,
    .kfree 0xFFFF000040200020]

theorem heap_sound_grown : (grownOps.foldl step booted).live = [(0xFFFF000040100020, 100)] ∧
      ∃ bs, (grownOps.foldl step booted).Sound bs :=
  ⟨by decide +kernel,
    heap_sound ((Reach.start booted_start).obeys
      (show Obeys Allowed step booted grownOps by decide +kernel))⟩

/-- Releasing the first block of the second region. -/
def acrossOps : List HeapOp :=
  [.kmalloc 1048560 (some 0x40200000) none, .kfree 0xFFFF000040200020, .kmalloc 2000000 none none]

/-- **A payload across two regions.** The second region lies right behind the first, in memory and in
the list, so `kfree` merges the free blocks of both; the next payload is in neither region. -/
theorem heap_payload_across_regions : ∃ s : HeapRun, Reach Start Allowed step s ∧
      ∃ e ∈ s.live, ¬ ∃ r ∈ s.heap.regions, r.1 ≤ e.1 ∧ e.1 + e.2 ≤ r.1 + r.2 :=
  ⟨acrossOps.foldl step booted, (Reach.start booted_start).obeys
    (show Obeys Allowed step booted acrossOps by decide +kernel), by decide +kernel⟩

end HeapRun
end FermiOs
