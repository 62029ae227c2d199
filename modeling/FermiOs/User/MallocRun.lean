import FermiOs.Library.Run
import FermiOs.User.Malloc

/-!
# Runs of the user library's heap

Every sequence of `malloc`, `calloc`, `realloc` and `free` calls with sizes up to `2 ^ 63` and stores
into payloads, the kernel moving the break or refusing to. In every state the list of blocks is doubly
linked in address order and tiles the arena from its base to the break, no two neighbours are free, and
the payloads in use are aligned, large enough and apart from each other. What `malloc` and `calloc`
return is filled with zeros.

Each call is described by what it does to the list of blocks: `malloc` puts one more block in use
(`Served`), `free` takes one out of use, and `realloc` is one of these, both, or a split.
-/

namespace FermiOs
open Library List Function
variable {b : Block} {base before n need : Nat} {bs : List Block} {granted : Bool} {h : UserHeap}
  {live : List (Nat × Nat)} {m : Bytes} {bs' l r : List Block} {c : Block} {g : UserHeap} {p : Nat}

namespace UserHeap

/-! ## Sizes -/

lemma alignUp_mod (n : Nat) : alignUp n % 16 = 0 := Nat.mul_mod_left _ _

lemma le_alignUp (hn : n ≤ 2 ^ 64 - 16) : n ≤ alignUp n ∧ alignUp n ≤ n + 15 := by
  unfold alignUp
  omega

lemma needOf_eq (h0 : n ≠ 0) : needOf n = alignUp n := by
  rw [needOf, if_neg h0]

lemma le_needOf (hn : n ≤ 2 ^ 64 - 16) : n ≤ needOf n ∧ needOf n ≤ n + 16 := by
  unfold needOf alignUp
  split
  · omega
  · omega

lemma blockOf_payload {b : Nat} (hb : b < 2 ^ 64) : blockOf (b + 32) = b := by
  unfold blockOf
  omega

/-! ## The search -/

section
variable (hr : h.Repr base bs)
include hr

lemma Repr.length_le : bs.length ≤ h.brk := by
  have hknown := hr.known
  split at hknown
  · have hlen := HeaderKind.length_le_total (K := header) bs
    have htotal := hr.tiled.total
    omega
  · rw [hknown]
    exact Nat.zero_le _

lemma Repr.with_errno (e : Nat) : ({ h with errno := e } : UserHeap).Repr base bs :=
  ⟨hr.chain, hr.tiled, hr.base_ne, hr.aligned, hr.sizes, hr.below, hr.known⟩

lemma Repr.header_mem (hb : b ∈ bs) : ∃ before n, Header h.mem b before n := by
  obtain ⟨l, r, rfl⟩ := append_of_mem hb
  obtain ⟨before, n, -, hshow, -⟩ := hr.chain.at_block
  exact ⟨before, n, hshow⟩

/-- No free block is large enough. -/
def NoFit (bs : List Block) (n : Nat) : Prop := ∀ b ∈ bs, b.free = true → b.size < n

/-- **First fit**: null if no block fits, otherwise a free block that is large enough. -/
lemma firstFit_cases (n : Nat) : (h.firstFit n = 0 ∧ NoFit bs n) ∨
      ∃ l b r, bs = l ++ b :: r ∧ b.free = true ∧ n ≤ b.size ∧ h.firstFit n = b.addr := by
  refine HeaderKind.first_fit (hr.chain.path fun b _ _ n hb => hb.next) rfl (fun b hb => ?_)
    hr.length_le
  obtain ⟨before, nx, hshow⟩ := hr.header_mem hb
  have hne := (hr.bounds hb).1
  cases hfree : b.free <;> simp [hshow.isFree, hshow.size, hne, hfree]

end

/-! ## Handing out -/

/-- One more block is in use, `c`: it is new and large enough. -/
structure Served (h : UserHeap) (base n : Nat) (bs : List Block) (c : Block) (bs' : List Block) :
    Prop where
  repr : h.Repr base bs'
  tidy : Tidy bs'
  mem : c ∈ bs'
  used : c.free = false
  large : n ≤ c.size
  fresh : ∀ b ∈ bs, b.free = false → b.addr ≠ c.addr
  live : ∀ d : Block, d.free = false → (d ∈ bs' ↔ d = c ∨ d ∈ bs)

lemma Served.mono (hs : h.Served base need bs c bs') (hn : n ≤ need) :
    h.Served base n bs c bs' := { hs with large := hn.trans hs.large }

/-- The payload of a block is filled with zeros. -/
def Zeroed (m : Bytes) (c : Block) : Prop := ∀ x, c.addr + 32 ≤ x → x < c.addr + 32 + c.size → m x = 0

/-- A block is marked as used and its payload is filled with zeros. -/
def cleared (m : Bytes) (b : Nat) : Bytes :=
  (flagged m b false).fill (b + 32) (size (flagged m b false) b) 0

lemma Repr.cleared (hr : h.Repr base (l ++ b :: r)) :
    ({ h with mem := cleared h.mem b.addr } : UserHeap).Repr base
      (l ++ { b with free := false } :: r) ∧
    Zeroed (UserHeap.cleared h.mem b.addr) b := by
  have hmark := hr.flagged false
  have hmem : { b with free := false } ∈ l ++ { b with free := false } :: r :=
    mem_append_right l mem_cons_self
  obtain ⟨before, n, hb⟩ := hmark.header_mem hmem
  have hsize : size (UserHeap.flagged h.mem b.addr false) b.addr = b.size := hb.size
  rw [UserHeap.cleared, hsize]
  exact ⟨hmark.with_payload hmem fun x hx => Bytes.fill_outside hx,
    fun x hlo hhi => Bytes.fill_inside hlo hhi⟩

/-- The size that decides about a cut does not wrap around. -/
lemma Repr.cut_mod (hr : h.Repr base bs) (hb : b ∈ bs) (hneed : need ≤ b.size) :
    (need + 32 + 16) % 2 ^ 64 = need + 48 := by
  have hbounds := hr.bounds hb
  have hal := hr.addr_aligned hb
  omega

/-- **A block that was found is handed out.** -/
lemma Repr.handOut (hr : h.Repr base (l ++ b :: r)) (ht : Tidy (l ++ b :: r))
    (hfree : b.free = true) (hneed : need ≤ b.size) (hal : need % 16 = 0) :
    ∃ c bs, c.addr = b.addr ∧ c.size < need + 48 ∧
      (h.handOut b.addr need).Served base need (l ++ b :: r) c bs ∧
      Zeroed (h.handOut b.addr need).mem c := by
  have hmem : b ∈ l ++ b :: r := mem_append_right l mem_cons_self
  obtain ⟨before, nx, hb⟩ := hr.header_mem hmem
  obtain ⟨htl, htr⟩ := tidy_split.mp ht
  have hmod := hr.cut_mod hmem hneed
  have hne : ∀ d : Block, d.free = false → d ≠ b := fun d hd => Block.ne_of_free hd hfree
  have hfresh := HeaderKind.fresh_of_free hr.tiled.apart hmem hfree
  rw [UserHeap.handOut, hb.size, hmod]
  split_ifs with hcut
  · obtain ⟨hr', hzero⟩ := (hr.split hcut hal).cleared
    refine ⟨⟨b.addr, need, false⟩,
      l ++ ⟨b.addr, need, false⟩ :: ⟨b.addr + 32 + need, b.size - need - 32, true⟩ :: r, rfl,
      Nat.lt_add_of_pos_right (by decide), ⟨hr', ?_, mem_append_right l mem_cons_self, rfl, le_rfl, hfresh,
      fun d hd => ?_⟩, hzero⟩
    · -- the rest of the block stands where the block stood
      refine tidy_split.mpr ⟨htl.left.append_used rfl, Tidy.used_cons ?_ rfl⟩
      exact Tidy.swap (l := []) htr hfree.symm
    have hnew : d ≠ ⟨b.addr + 32 + need, b.size - need - 32, true⟩ := Block.ne_of_free hd rfl
    simp only [mem_append, mem_cons]
    tauto
  obtain ⟨hr', hzero⟩ := hr.cleared
  refine ⟨{ b with free := false }, _, rfl, Nat.lt_of_not_le hcut, ⟨hr', ?_,
    mem_append_right l mem_cons_self, rfl, hneed, hfresh, fun d hd => ?_⟩, hzero⟩
  · exact tidy_split.mpr ⟨htl.left.append_used rfl, htr.tail.used_cons rfl⟩
  · have hnb := hne d hd
    simp only [mem_append, mem_cons]
    tauto

/-! ## Growing -/

lemma Repr.kernelBrk_ne (hr : h.Repr base bs) : h.kernelBrk ≠ 0 := by
  have hne := hr.base_ne
  have htotal := hr.tiled.total
  omega

/-- In both branches of `heap_grow` the break is the kernel's. -/
lemma Repr.heapGrow (hr : h.Repr base bs) (chunk : Nat) (granted : Bool) : h.heapGrow chunk granted =
      ({ h with brk := h.kernelBrk, ready := true } : UserHeap).growBy chunk granted := by
  have hknown := hr.known
  rw [UserHeap.heapGrow]
  split_ifs with hyes
  · rw [if_pos hyes] at hknown
    have heq : ({ h with brk := h.kernelBrk, ready := true } : UserHeap) = h := by
      cases h
      cases hknown
      cases hyes
      rfl
    rw [heq]
  · rw [if_neg hr.kernelBrk_ne]

/-- Neither the size of the growth nor the new break wraps around to one the kernel grants. -/
def Grows (h : UserHeap) (need : Nat) (granted : Bool) : Prop :=
  if granted then h.kernelBrk + (need + 32) < 2 ^ 64 else (need + 32) % 2 ^ 64 ≠ 0

/-- **`heap_grow`**: refused, or the break has moved. -/
lemma heapGrow_cases (hr : h.Repr base bs) (hg : h.Grows need granted) :
    (granted = false ∧ (h.heapGrow ((need + 32) % 2 ^ 64) granted).1 = 0 ∧
        (h.heapGrow ((need + 32) % 2 ^ 64) granted).2.Repr base bs) ∨
      (granted = true ∧ h.kernelBrk + (need + 32) < 2 ^ 64 ∧
        (h.heapGrow ((need + 32) % 2 ^ 64) granted).1 = h.kernelBrk ∧
        (h.heapGrow ((need + 32) % 2 ^ 64) granted).2 = { h with
          brk := h.kernelBrk + (need + 32), kernelBrk := h.kernelBrk + (need + 32), ready := true,
          bytes := (h.bytes + (need + 32)) % 2 ^ 64 }) := by
  have hrepr : ∀ g : UserHeap, g.mem = h.mem → g.head = h.head → g.tail = h.tail → g.ready = true →
      g.brk = h.kernelBrk → g.kernelBrk = h.kernelBrk → g.Repr base bs := by
    intro g h1 h2 h3 h4 h5 h6
    refine ⟨?_, h6 ▸ hr.tiled, hr.base_ne, hr.aligned, hr.sizes, h6 ▸ hr.below, ?_⟩
    · rw [h1, h2, h3]
      exact hr.chain
    · rw [if_pos h4, h5, h6]
  rw [hr.heapGrow, growBy, sysBrk]
  cases granted with
  | true =>
    have hsum : h.kernelBrk + (need + 32) < 2 ^ 64 := hg
    have hchunk : (need + 32) % 2 ^ 64 = need + 32 := Nat.mod_eq_of_lt (by omega)
    rw [hchunk, Nat.mod_eq_of_lt hsum, if_pos rfl, if_neg (not_not.mpr rfl)]
    exact .inr ⟨rfl, hsum, rfl, rfl⟩
  | false =>
    have hne : (need + 32) % 2 ^ 64 ≠ 0 := hg
    have hbelow := hr.below
    have hmoved : h.kernelBrk ≠ (h.kernelBrk + (need + 32) % 2 ^ 64) % 2 ^ 64 := by omega
    rw [if_neg Bool.false_ne_true, if_pos hmoved]
    exact .inl ⟨rfl, rfl, hrepr _ rfl rfl rfl rfl rfl rfl⟩

/-- The header of the new block. -/
def newHeader (m : Bytes) (b need before : Nat) : Bytes :=
  setPrev (setNext (setMagic (setIsFree (setSize m b need) b 0) b magicAlloc) b 0) b before

lemma newHeader_outside {b x : Nat} (hx : x < b ∨ b + 32 ≤ x) : newHeader m b need before x = m x := by
  simp only [newHeader, setPrev, setNext, setMagic, setIsFree, setSize]
  simp (disch := omega) only [Bytes.store_outside]

lemma header_new {b : Nat} (hneed : need < 2 ^ 64) (hb : before < 2 ^ 64) :
    Header (newHeader m b need before) ⟨b, need, false⟩ before 0 := by
  have halloc := magicAlloc_lt
  constructor <;> simp only [size, next, prev, magic, isFree, newHeader, setPrev, setNext, setMagic,
    setIsFree, setSize] <;> simp (disch := omega) only [Bytes.load_store_of_apart, Bytes.load_store,
      Bool.false_eq_true, if_false]

/-- The last block links to a new one. -/
lemma header_setNext {v : Nat} (h : Header m b before n) (hv : v < 2 ^ 64) :
    Header (setNext m b.addr v) b before v := by
  obtain ⟨hsize, -, hprev, hmagic, hflag⟩ := h.loads
  constructor <;> simp only [size, next, prev, magic, isFree, setNext] <;>
    simp (disch := omega) only [Bytes.load_store_of_apart, Bytes.load_store, hsize, hprev, hmagic,
      hflag]

/-- **A block is appended** to the list, at `b`. -/
lemma addBlock_chain {b : Nat} (hc : header.Chain h.mem 0 h.head bs 0 h.tail)
    (hbs : ∀ c ∈ bs, c.addr ≠ 0 ∧ header.stop c ≤ b) (hap : header.seg.Apart bs)
    (hlt : b + 32 + need < 2 ^ 64) :
    header.Chain (h.addBlock b need).mem 0 (h.addBlock b need).head (bs ++ [⟨b, need, false⟩]) 0
      (h.addBlock b need).tail := by
  have htail : h.tail < 2 ^ 64 ∧ (h.tail = 0 ↔ bs = []) := by
    rcases eq_nil_or_concat bs with rfl | ⟨l, t, rfl⟩
    · rw [← hc.2]
      exact ⟨by decide, iff_of_true rfl rfl⟩
    rw [concat_eq_append] at hc hbs ⊢
    obtain ⟨hne, hstop⟩ := hbs t (mem_append_right l (mem_singleton_self t))
    rw [stop_eq] at hstop
    rw [hc.last_eq]
    exact ⟨by omega, iff_of_false hne (by simp)⟩
  have hnew : Header (newHeader h.mem b need h.tail) ⟨b, need, false⟩ h.tail 0 :=
    header_new (by omega) htail.1
  unfold addBlock heapAppend
  dsimp only
  rcases eq_nil_or_concat bs with rfl | ⟨l, t, rfl⟩
  · have h0 := htail.2.mpr rfl
    rw [h0] at hnew ⊢
    refine ⟨rfl, 0, hnew.keep fun x hlo hhi => Bytes.fill_outside (.inl hhi), rfl, rfl⟩
  rw [concat_eq_append] at hc hbs hap htail ⊢
  have ht : t ∈ l ++ [t] := mem_append_right l (mem_singleton_self t)
  have hne : h.tail ≠ 0 := fun h0 => absurd (htail.2.mp h0) (by simp)
  have hlast := hc.last_eq
  obtain ⟨before, n, hl, hshow, -⟩ := hc.at_block
  rw [if_pos hne, append_assoc]
  rw [hlast] at hnew ⊢
  have hstop := (hbs t ht).2
  rw [stop_eq] at hstop
  -- the memory, seen from the old blocks
  have hm : ∀ x, x < b → x < t.addr ∨ t.addr + 32 ≤ x →
      ((setNext (newHeader h.mem b need t.addr) t.addr b).fill (b + 32) need 0) x = h.mem x := by
    intro x hx hout
    rw [Bytes.fill_outside (by omega), setNext, Bytes.store_outside (by omega),
      newHeader_outside (by omega)]
  have hfar := HeaderKind.apart_middle hap
  refine HeaderKind.chain_append.mpr ⟨t.addr, before, ?_, rfl, b, ?_, rfl, 0, ?_, rfl, rfl⟩
  · refine hl.congr fun c hcm x hlo hhi => ?_
    have hcb := (hbs c (mem_append_left _ hcm)).2
    have hct := hfar c (mem_append_left _ hcm)
    rw [stop_eq] at hcb hct
    rw [stop_eq] at hct
    have hhi : x < c.addr + 32 := hhi
    exact hm x (by omega) (by omega)
  · have hold : Header (newHeader h.mem b need t.addr) t before n :=
      hshow.keep fun x hlo hhi => newHeader_outside (by omega)
    refine (header_setNext hold (by omega)).keep fun x hlo hhi => ?_
    exact Bytes.fill_outside (by omega)
  refine hnew.keep fun x hlo hhi => ?_
  have hlo : b ≤ x := hlo
  have hhi : x < b + 32 := hhi
  rw [Bytes.fill_outside (by omega)]
  exact Bytes.store_outside (by omega)

/-- **A new block** at the old break is in use. -/
lemma Repr.addBlock (hr : h.Repr base bs) (ht : Tidy bs) (hal : need % 16 = 0)
    (hlt : h.kernelBrk + (need + 32) < 2 ^ 64) (hg : g = { h with
      brk := h.kernelBrk + (need + 32), kernelBrk := h.kernelBrk + (need + 32), ready := true,
      bytes := (h.bytes + (need + 32)) % 2 ^ 64 }) :
    (g.addBlock h.kernelBrk need).Served base need bs ⟨h.kernelBrk, need, false⟩
        (bs ++ [⟨h.kernelBrk, need, false⟩]) ∧
      Zeroed (g.addBlock h.kernelBrk need).mem ⟨h.kernelBrk, need, false⟩ := by
  have hbs : ∀ c ∈ bs, c.addr ≠ 0 ∧ header.stop c ≤ h.kernelBrk := fun c hc =>
    ⟨(hr.bounds hc).1, (hr.tiled.bounds hc).2⟩
  have hgc : header.Chain g.mem 0 g.head bs 0 g.tail := by
    rw [hg]
    exact hr.chain
  have hchain := @addBlock_chain need bs g h.kernelBrk hgc hbs hr.tiled.apart (by omega)
  have hsame : (g.addBlock h.kernelBrk need).kernelBrk = h.kernelBrk + (need + 32) ∧
      (g.addBlock h.kernelBrk need).brk = h.kernelBrk + (need + 32) ∧
      (g.addBlock h.kernelBrk need).ready = true := by
    rw [hg, UserHeap.addBlock, heapAppend]
    split
    · exact ⟨rfl, rfl, rfl⟩
    · exact ⟨rfl, rfl, rfl⟩
  refine ⟨⟨⟨hchain, ?_, hr.base_ne, hr.aligned, ?_, ?_, ?_⟩, ht.append_used rfl,
    mem_append_right bs (mem_singleton_self _), rfl, le_rfl, ?_, ?_⟩, ?_⟩
  · rw [hsame.1]
    refine HeaderKind.tiled_append.mpr ⟨h.kernelBrk, hr.tiled, rfl, ?_⟩
    show h.kernelBrk + 32 + need = h.kernelBrk + (need + 32)
    omega
  · intro c hc
    rcases mem_append.mp hc with hc | hc
    · exact hr.sizes c hc
    · obtain rfl := mem_singleton.mp hc
      exact hal
  · rw [hsame.1]
    exact hlt
  · rw [if_pos hsame.2.2, hsame.1, hsame.2.1]
  · intro c hc _
    have hstop := (hbs c hc).2
    rw [stop_eq] at hstop
    show c.addr ≠ h.kernelBrk
    omega
  · intro d _
    rw [mem_append, mem_singleton, or_comm]
  · intro x hlo hhi
    exact Bytes.fill_inside hlo hhi

/-! ## The calls -/

/-- The break the kernel may grant, should it be asked. -/
def GrowsTo (h : UserHeap) (n : Nat) (granted : Bool) : Prop :=
  granted = true → h.kernelBrk + (needOf n + 32) < 2 ^ 64

lemma GrowsTo.grows (hg : h.GrowsTo n granted) (hn : n ≤ 2 ^ 63) : h.Grows (needOf n) granted := by
  have hle := (le_needOf (n := n) (by omega)).2
  cases granted with
  | true => exact hg rfl
  | false =>
    show (needOf n + 32) % 2 ^ 64 ≠ 0
    omega

/-- **`malloc`**: refused, or one more block is in use and filled with zeros. -/
lemma malloc_cases (hr : h.Repr base bs) (ht : Tidy bs)
    (hg : NoFit bs (needOf n) → h.Grows (needOf n) granted) :
    (NoFit bs (needOf n) ∧ granted = false ∧ (h.malloc n granted).1 = 0 ∧
        (h.malloc n granted).2.Repr base bs) ∨
      ((NoFit bs (needOf n) → granted = true) ∧ ∃ c bs', (h.malloc n granted).1 = c.addr + 32 ∧
        c.size < needOf n + 48 ∧ (h.malloc n granted).2.Served base (needOf n) bs c bs' ∧
        Zeroed (h.malloc n granted).2.mem c) := by
  have hal : needOf n % 16 = 0 := alignUp_mod _
  rw [malloc]
  rcases firstFit_cases hr (needOf n) with ⟨hzero, hno⟩ | ⟨l, b, r, rfl, hfree, hsize, hfit⟩
  · rw [hzero, if_neg (not_not.mpr rfl)]
    dsimp only
    rcases heapGrow_cases hr (hg hno) with ⟨hrefused, h0, hr'⟩ | ⟨hgranted, hsum, h1, hgrown⟩
    · rw [if_pos h0]
      exact .inl ⟨hno, hrefused, rfl, hr'.with_errno enomem⟩
    · rw [h1, if_neg hr.kernelBrk_ne]
      exact .inr ⟨fun _ => hgranted, _, _, rfl, Nat.lt_add_of_pos_right (by decide),
        hr.addBlock ht hal hsum hgrown⟩
  · have hmem : b ∈ l ++ b :: r := mem_append_right l mem_cons_self
    rw [hfit, if_pos (hr.bounds hmem).1]
    obtain ⟨c, bs', haddr, hcut, hserved, hz⟩ := hr.handOut ht hfree hsize hal
    exact .inr ⟨fun hno => absurd (hno b hmem hfree) (Nat.not_lt.mpr hsize), c, bs', by rw [haddr],
      hcut, hserved, hz⟩

/-- **`free`** of a pointer in use. -/
lemma Repr.free (hr : h.Repr base bs) (ht : Tidy bs) (hb : b ∈ bs) (hused : b.free = false) :
    ∃ bs', (h.free (b.addr + 32)).Repr base bs' ∧ Tidy bs' ∧
      ∀ d : Block, d.free = false → (d ∈ bs' ↔ d ≠ b ∧ d ∈ bs) := by
  have hbelow := (hr.bounds hb).2
  obtain ⟨before, n, hshow⟩ := hr.header_mem hb
  have hmagic : magic h.mem b.addr = magicAlloc := hshow.magic.trans (by rw [hused]; rfl)
  have hcode : h.free (b.addr + 32) = (h.blockRelease b.addr).2 := by
    rw [UserHeap.free, if_neg (by omega), blockOf_payload (by omega), if_neg (not_not.mpr hmagic)]
  obtain ⟨l, r, rfl⟩ := append_of_mem hb
  obtain ⟨htl, htr⟩ := tidy_split.mp ht
  obtain ⟨bs', hr', ht', hlive⟩ := hr.release htl.left htr.tail
  exact ⟨bs', hcode ▸ hr', ht', fun d hd =>
    (hlive d hd).trans (HeaderKind.mem_rest hr.tiled.apart)⟩

/-- The other blocks. -/
def others (bs : List Block) (b : Block) : List Block := bs.filter fun d => d ≠ b

lemma mem_others {d : Block} : d ∈ others bs b ↔ d ≠ b ∧ d ∈ bs := by
  rw [others, mem_filter, decide_eq_true_eq, and_comm]

/-- No other block is at the address of `b`. -/
lemma Repr.others_fresh (hr : h.Repr base bs) (hb : b ∈ bs) :
    ∀ d ∈ others bs b, d.free = false → d.addr ≠ b.addr := by
  intro d hd _ haddr
  obtain ⟨hne, hd⟩ := mem_others.mp hd
  exact hne (HeaderKind.addr_inj hr.tiled.apart hd hb haddr)

/-- **A block in use is cut**, and the rest released. -/
lemma Repr.shrink {keep : Nat} (hr : h.Repr base bs) (ht : Tidy bs) (hb : b ∈ bs)
    (hused : b.free = false) (hcut : keep + 48 ≤ b.size) (hal : keep % 16 = 0) :
    ∃ bs', ((h.split b.addr keep).blockRelease (b.addr + 32 + keep)).2.Served base keep (others bs b)
      ⟨b.addr, keep, false⟩ bs' := by
  have hfresh := hr.others_fresh hb
  obtain ⟨l, r, rfl⟩ := append_of_mem hb
  obtain ⟨htl, htr⟩ := tidy_split.mp ht
  have hsplit : (h.split b.addr keep).Repr base
      ((l ++ [⟨b.addr, keep, false⟩]) ++ ⟨b.addr + 32 + keep, b.size - keep - 32, true⟩ :: r) := by
    have := hr.split hcut hal
    rw [parts, hused] at this
    rw [append_assoc]
    exact this
  obtain ⟨bs', hr', ht', hlive⟩ := hsplit.release (htl.left.append_used rfl) htr.tail
  have hmem : (⟨b.addr, keep, false⟩ : Block) ∈ bs' := by
    refine (hlive _ rfl).mpr ?_
    simp
  refine ⟨bs', hr', ht', hmem, rfl, le_rfl, hfresh, fun d hd => (hlive d hd).trans ?_⟩
  rw [mem_others, ← HeaderKind.mem_rest hr.tiled.apart]
  simp only [mem_append, mem_cons, not_mem_nil, or_false]
  tauto

/-- **`realloc`** of a pointer in use: refused, or the block `b` is replaced by `c`. -/
lemma realloc_cases (hr : h.Repr base bs) (ht : Tidy bs) (hb : b ∈ bs) (hused : b.free = false)
    (hn0 : n ≠ 0) (hg : ¬ alignUp n ≤ b.size → NoFit bs (needOf n) → h.Grows (needOf n) granted) :
    ((h.realloc (b.addr + 32) n granted).1 = 0 ∧ ¬ alignUp n ≤ b.size ∧
        (h.realloc (b.addr + 32) n granted).2.Repr base bs) ∨
      ∃ c bs', (h.realloc (b.addr + 32) n granted).1 = c.addr + 32 ∧
        (alignUp n ≤ b.size → c.size < alignUp n + 48) ∧
        (h.realloc (b.addr + 32) n granted).2.Served base (alignUp n) (others bs b) c bs' := by
  have hal := alignUp_mod n
  have hbelow := (hr.bounds hb).2
  obtain ⟨before, nx, hshow⟩ := hr.header_mem hb
  rw [realloc, if_neg (by omega), if_neg hn0, blockOf_payload (by omega)]
  dsimp only
  rw [hshow.size]
  by_cases hin : alignUp n ≤ b.size
  · rw [if_pos hin, hr.cut_mod hb hin]
    by_cases hcut : alignUp n + 48 ≤ b.size
    · rw [if_pos hcut]
      dsimp only
      obtain ⟨bs', hserved⟩ := hr.shrink ht hb hused hcut hal
      exact .inr ⟨⟨b.addr, alignUp n, false⟩, bs', rfl,
        fun _ => Nat.lt_add_of_pos_right (by decide), hserved⟩
    -- the block stays as it is
    rw [if_neg hcut]
    refine .inr ⟨b, bs, rfl, fun _ => Nat.lt_of_not_le hcut, hr, ht, hb, hused, hin,
      hr.others_fresh hb, fun d _ => ?_⟩
    by_cases hdb : d = b
    · exact iff_of_true (hdb ▸ hb) (.inl hdb)
    · simp [mem_others, hdb]
  rw [if_neg hin]
  rcases malloc_cases hr ht (hg hin) with ⟨-, -, h0, hr'⟩ | ⟨-, c, bs1, hptr, -, hserved, -⟩
  · rw [if_pos h0]
    exact .inl ⟨rfl, hin, hr'⟩
  rw [hptr, if_neg (by omega)]
  dsimp only
  -- the copy stays inside the new payload
  have hlarge := hserved.large
  rw [needOf_eq hn0] at hlarge
  have hcopied : (if b.size < n then b.size else n) ≤ c.size := by
    split
    · omega
    · omega
  have hcopy : ∀ x, x < c.addr + 32 ∨ c.addr + 32 + c.size ≤ x →
      (h.malloc n granted).2.mem.copy (c.addr + 32) (b.addr + 32)
        (if b.size < n then b.size else n) x = (h.malloc n granted).2.mem x :=
    fun x hx => Bytes.copy_outside (by omega)
  have hr1 := hserved.repr.with_payload hserved.mem hcopy
  have hbin : b ∈ bs1 := (hserved.live b hused).mpr (.inr hb)
  obtain ⟨bs2, hr2, ht2, hlive⟩ := hr1.free hserved.tidy hbin hused
  have hcb : c ≠ b := by
    rintro rfl
    exact hserved.fresh c hb hused rfl
  refine .inr ⟨c, bs2, rfl, fun hle => absurd hle hin, hr2, ht2, ?_, hserved.used, hlarge, ?_,
    fun d hd => ?_⟩
  · exact (hlive c hserved.used).mpr ⟨hcb, hserved.mem⟩
  · intro d hd hdf
    exact hserved.fresh d (mem_others.mp hd).2 hdf
  rw [hlive d hd, hserved.live d hd, mem_others]
  by_cases hdc : d = c
  · exact iff_of_true ⟨hdc ▸ hcb, .inl hdc⟩ (.inl hdc)
  · simp [hdc]

/-- **`calloc`** refuses products that do not fit; otherwise it is `malloc`. -/
lemma calloc_eq (h : UserHeap) (nmemb size : Nat) (granted : Bool) : h.calloc nmemb size granted =
      if 2 ^ 64 ≤ nmemb * size then (0, { h with errno := enomem })
      else h.malloc (nmemb * size) granted := by
  rw [calloc]
  by_cases h0 : nmemb = 0
  · rw [h0, zero_mul, if_neg fun hc => hc.1 rfl]
    rfl
  have hiff : (2 ^ 64 - 1) / nmemb < size ↔ 2 ^ 64 ≤ nmemb * size := by
    rw [Nat.div_lt_iff_lt_mul (pos_of_ne_zero h0), mul_comm]
    omega
  split_ifs with hover hbig hbig
  · rfl
  · exact absurd (hiff.mp hover.2) hbig
  · exact absurd ⟨h0, hiff.mpr hbig⟩ hover
  · rw [Nat.mod_eq_of_lt (by omega)]

end UserHeap

/-! ## Runs -/

/-- The heap, and the pointers in use with the sizes that were asked for. -/
structure MallocRun where
  heap : UserHeap
  live : List (Nat × Nat)

/-- A call, with the kernel's answer should the break have to move, or a store into a payload. -/
inductive MallocOp
  | malloc (n : Nat) (granted : Bool)
  | calloc (nmemb size : Nat) (granted : Bool)
  | realloc (p n : Nat) (granted : Bool)
  | free (p : Nat)
  | write (a : Nat) (v : UInt8)

namespace MallocRun
open UserHeap

/-- The pointers in use after a request was answered. -/
def handed (live : List (Nat × Nat)) (n : Nat) (r : Nat × UserHeap) : MallocRun :=
  ⟨r.2, if r.1 = 0 then live else (r.1, n) :: live⟩

/-- One operation. A refused `realloc` leaves its pointer in use, `realloc(p, 0)` frees it. -/
def step (s : MallocRun) : MallocOp → MallocRun
  | .malloc n granted => handed s.live n (s.heap.malloc n granted)
  | .calloc nmemb size granted => handed s.live (nmemb * size) (s.heap.calloc nmemb size granted)
  | .realloc p n granted =>
    let r := s.heap.realloc p n granted
    if r.1 = 0 ∧ n ≠ 0 then ⟨r.2, s.live⟩
    else handed (s.live.filter fun e => e.1 ≠ p) n r
  | .free p => ⟨s.heap.free p, s.live.filter fun e => e.1 ≠ p⟩
  | .write a v => { s with heap := { s.heap with mem := update s.heap.mem a v } }

/-- Sizes are at most `2 ^ 63` (a product may also be too large for 64 bits); the kernel moves the break
inside the address space; pointers are null or in use, or for `free` such that the check of the magic
number refuses them; stores stay inside what was asked for. -/
def Allowed (s : MallocRun) : MallocOp → Prop
  | .malloc n granted => n ≤ 2 ^ 63 ∧ s.heap.GrowsTo n granted
  | .calloc nmemb size granted =>
    (nmemb * size ≤ 2 ^ 63 ∨ 2 ^ 64 ≤ nmemb * size) ∧ s.heap.GrowsTo (nmemb * size) granted
  | .realloc p n granted =>
    (p = 0 ∨ p ∈ s.live.map Prod.fst) ∧ n ≤ 2 ^ 63 ∧ s.heap.GrowsTo n granted
  | .free p => p = 0 ∨ p ∈ s.live.map Prod.fst ∨ magic s.heap.mem (blockOf p) ≠ magicAlloc
  | .write a _ => ∃ e ∈ s.live, e.1 ≤ a ∧ a < e.1 + e.2

/-- Before the first call; the break is at `base`. -/
def Start (base : Nat) (s : MallocRun) : Prop :=
  base ≠ 0 ∧ base % 16 = 0 ∧ base < 2 ^ 64 ∧ ∃ m e, s = ⟨⟨m, 0, 0, 0, false, 0, e, base⟩, []⟩

/-- What holds between operations. -/
def Inv (base : Nat) (s : MallocRun) : Prop :=
  ∃ bs, s.heap.Repr base bs ∧ Tidy bs ∧ header.Owns bs s.live

lemma inv_start {s : MallocRun} (h : Start base s) : Inv base s := by
  obtain ⟨hne, hal, hlt, m, e, rfl⟩ := h
  exact ⟨[], ⟨⟨rfl, rfl⟩, rfl, hne, hal, forall_mem_nil _, hlt, rfl⟩, isChain_nil, .nil⟩

/-- A request that was served puts one more pointer in use. -/
lemma Inv.served (ho : header.Owns bs live) (hs : g.Served base n bs c bs') :
    Inv base (handed live n (c.addr + 32, g)) :=
  ⟨bs', hs.repr, hs.tidy, ho.alloc hs.used hs.fresh hs.live hs.large⟩

lemma inv_malloc (hr : h.Repr base bs) (ht : Tidy bs) (ho : header.Owns bs live) (hn : n ≤ 2 ^ 63)
    (hg : h.GrowsTo n granted) :
    Inv base (handed live n (h.malloc n granted)) := by
  rcases malloc_cases hr ht fun _ => hg.grows hn with
    ⟨-, -, h0, hr'⟩ | ⟨-, c, bs', hptr, -, hserved, -⟩
  · rw [handed, if_pos h0]
    exact ⟨bs, hr', ht, ho⟩
  · have hinv := Inv.served ho (hserved.mono (le_needOf (by omega)).1)
    rw [← hptr] at hinv
    exact hinv

lemma inv_calloc {nmemb size : Nat} (hr : h.Repr base bs) (ht : Tidy bs)
    (ho : header.Owns bs live) (hs : nmemb * size ≤ 2 ^ 63 ∨ 2 ^ 64 ≤ nmemb * size)
    (hg : h.GrowsTo (nmemb * size) granted) :
    Inv base (handed live (nmemb * size) (h.calloc nmemb size granted)) := by
  rw [calloc_eq]
  split_ifs with hbig
  · exact ⟨bs, hr.with_errno enomem, ht, ho⟩
  · exact inv_malloc hr ht ho (hs.resolve_right hbig) hg

/-- A pointer in use is the payload of a block in use. -/
lemma owns_block (ho : header.Owns bs live) (hp : p ∈ live.map Prod.fst) :
    ∃ b ∈ bs, b.free = false ∧ p = b.addr + 32 := by
  obtain ⟨e, he, rfl⟩ := mem_map.mp hp
  obtain ⟨b, hb, hused, hptr, -⟩ := ho.block e he
  exact ⟨b, hb, hused, hptr⟩

lemma inv_free (hr : h.Repr base bs) (ht : Tidy bs) (ho : header.Owns bs live)
    (hp : p = 0 ∨ p ∈ live.map Prod.fst ∨ magic h.mem (blockOf p) ≠ magicAlloc) :
    Inv base ⟨h.free p, live.filter fun e => e.1 ≠ p⟩ := by
  by_cases hin : p ∈ live.map Prod.fst
  · obtain ⟨b, hb, hused, rfl⟩ := owns_block ho hin
    obtain ⟨bs', hr', ht', hlive⟩ := hr.free ht hb hused
    exact ⟨bs', hr', ht', ho.release hr.tiled.apart hb hlive⟩
  -- null, or refused by the check
  have hkeep : h.free p = h := by
    unfold UserHeap.free
    split
    · rfl
    · rename_i h0
      rw [if_pos ((hp.resolve_left h0).resolve_left hin)]
  rw [hkeep, HeaderKind.filter_absent hin]
  exact ⟨bs, hr, ht, ho⟩

/-- **One operation** keeps the invariant. -/
lemma inv_step {s : MallocRun} {op : MallocOp} (h : Inv base s) (ha : s.Allowed op) :
    Inv base (s.step op) := by
  obtain ⟨bs, hr, ht, ho⟩ := h
  cases op with
  | malloc n granted => exact inv_malloc hr ht ho ha.1 ha.2
  | calloc nmemb size granted => exact inv_calloc hr ht ho ha.1 ha.2
  | realloc p n granted =>
    obtain ⟨hp, hn, hg⟩ := ha
    rw [step]
    by_cases hin : p ∈ s.live.map Prod.fst
    · obtain ⟨b, hb, hused, rfl⟩ := owns_block ho hin
      by_cases hn0 : n = 0
      · have hcode : s.heap.realloc (b.addr + 32) n granted = (0, s.heap.free (b.addr + 32)) := by
          rw [realloc, if_neg (by omega), if_pos hn0]
        rw [hcode, if_neg fun hc => hc.2 hn0]
        exact inv_free hr ht ho (.inr (.inl hin))
      rcases realloc_cases hr ht hb hused hn0 fun _ _ => hg.grows hn with
        ⟨h0, -, hr'⟩ | ⟨c, bs', hptr, -, hserved⟩
      · rw [if_pos ⟨h0, hn0⟩]
        exact ⟨bs, hr', ht, ho⟩
      have hrest : header.Owns (others bs b) (s.live.filter fun e => e.1 ≠ b.addr + 32) :=
        ho.release hr.tiled.apart hb fun d _ => mem_others
      have hinv := Inv.served hrest (hserved.mono (le_alignUp (n := n) (by omega)).1)
      rw [← hptr] at hinv
      rw [if_neg fun hc => by rw [hptr] at hc; omega]
      exact hinv
    obtain rfl := hp.resolve_right hin
    have hinv := inv_malloc hr ht ho hn hg
    have hcode : s.heap.realloc 0 n granted = s.heap.malloc n granted := if_pos rfl
    rw [hcode, HeaderKind.filter_absent hin]
    split_ifs with hc
    · rw [handed, if_pos hc.1] at hinv
      exact hinv
    · exact hinv
  | free p => exact inv_free hr ht ho ha
  | write a v =>
    obtain ⟨e, he, hlo, hhi⟩ := ha
    exact ⟨bs, hr.with_mem (ho.chain_write hr.tiled.apart hr.chain he hlo hhi v), ht, ho⟩

/-! ## Soundness -/

/-- The heap is sound: the list is doubly linked with its ends in `heap_head` and `heap_tail`, the
blocks lie one behind the other from the base to the break, no two neighbours are free, and every
payload in use is aligned, as large as was asked for, and apart from the others. -/
structure Sound (base : Nat) (s : MallocRun) (bs : List Block) : Prop where
  forward : Path (next s.heap.mem) s.heap.head (bs.map Block.addr) 0
  backward : Path (prev s.heap.mem) s.heap.tail (bs.map Block.addr).reverse 0
  fields : ∀ b ∈ bs, size s.heap.mem b.addr = b.size ∧
    isFree s.heap.mem b.addr = if b.free then 1 else 0
  order : (bs.map Block.addr).Pairwise (· < ·)
  tiled : header.Tiled base bs s.heap.kernelBrk
  known : bs ≠ [] → s.heap.brk = s.heap.kernelBrk
  tidy : Tidy bs
  payload : ∀ e ∈ s.live, e.1 % 16 = 0 ∧
    ∃ b ∈ bs, b.free = false ∧ e.1 = b.addr + 32 ∧ e.2 ≤ b.size
  apart : s.live.Pairwise fun e f => e.1 + e.2 ≤ f.1 ∨ f.1 + f.2 ≤ e.1

lemma Inv.sound {s : MallocRun} (h : Inv base s) : ∃ bs, Sound base s bs := by
  obtain ⟨bs, hr, ht, ho⟩ := h
  refine ⟨bs, hr.chain.path fun b _ _ n hb => hb.next,
    hr.chain.path_back fun b _ before _ hb => hb.prev, ?_, ?_, hr.tiled, ?_, ht, ?_,
    ho.apart hr.tiled.apart⟩
  · intro b hb
    obtain ⟨before, n, hshow⟩ := hr.header_mem hb
    exact ⟨hshow.size, hshow.isFree⟩
  · refine pairwise_map.mpr (hr.tiled.sorted.imp fun {a b} hab => ?_)
    rw [stop_eq] at hab
    omega
  · intro hne
    have hknown := hr.known
    split at hknown
    · exact hknown
    · exact absurd hknown hne
  intro e he
  obtain ⟨b, hb, hused, hptr, hsize⟩ := ho.block e he
  have hptr : e.1 = b.addr + 32 := hptr
  have hal := hr.addr_aligned hb
  exact ⟨by omega, b, hb, hused, hptr, hsize⟩

/-- If a pointer is returned, its payload is filled with zeros. -/
def ReturnsZeroed (r : Nat × UserHeap) : Prop :=
  r.1 ≠ 0 → ∀ x, r.1 ≤ x → x < r.1 + size r.2.mem (r.1 - 32) → r.2.mem x = 0

lemma malloc_zeroed (hr : h.Repr base bs) (ht : Tidy bs) (hn : n ≤ 2 ^ 63) (hg : h.GrowsTo n granted) :
    ReturnsZeroed (h.malloc n granted) := by
  rcases malloc_cases hr ht fun _ => hg.grows hn with
    ⟨-, -, h0, -⟩ | ⟨-, c, bs', hptr, -, hserved, hzero⟩
  · exact fun hne => absurd h0 hne
  obtain ⟨before, nx, hshow⟩ := hserved.repr.header_mem hserved.mem
  have hback : (h.malloc n granted).1 - 32 = c.addr := by omega
  intro _ x hlo hhi
  rw [hback, hshow.size, hptr] at hhi
  rw [hptr] at hlo
  exact hzero x hlo hhi

/-- **The user library's heap is sound in every run**, and `malloc` and `calloc` return zeros. -/
theorem malloc_sound {base : Nat} {s : MallocRun} (h : Reach (Start base) Allowed step s) :
    (∃ bs, Sound base s bs) ∧
      (∀ n granted, s.Allowed (.malloc n granted) → ReturnsZeroed (s.heap.malloc n granted)) ∧
      ∀ nmemb size granted, s.Allowed (.calloc nmemb size granted) →
        ReturnsZeroed (s.heap.calloc nmemb size granted) := by
  have hinv : Inv base s :=
    Reach.invariant (Inv base) (fun _ hs => inv_start hs) (fun _ _ hi ha => inv_step hi ha) h
  refine ⟨hinv.sound, ?_, ?_⟩
  · obtain ⟨bs, hr, ht, -⟩ := hinv
    rintro n granted ⟨hn, hg⟩
    exact malloc_zeroed hr ht hn hg
  obtain ⟨bs, hr, ht, -⟩ := hinv
  rintro nmemb size granted ⟨hs, hg⟩
  rw [calloc_eq]
  split_ifs with hbig
  · exact fun hne => absurd rfl hne
  · exact malloc_zeroed hr ht (hs.resolve_right hbig) hg

instance GrowsTo.decidable (h : UserHeap) (n : Nat) (granted : Bool) :
    Decidable (h.GrowsTo n granted) := inferInstanceAs (Decidable (_ → _))

instance Allowed.decidable (s : MallocRun) (op : MallocOp) : Decidable (s.Allowed op) := by
  cases op <;> dsimp only [Allowed] <;> infer_instance

/-- Nothing asked for yet, with the break where the kernel puts it. -/
def fresh : MallocRun := ⟨⟨fun _ => 0, 0, 0, 0, false, 0, 0, 0x20000000⟩, []⟩

/-- Three blocks; the first is shrunk in place, the second grows past its block and moves, the third
is freed twice and merges with the hole the second has left, and a last request is refused. -/
def mixedOps : List MallocOp :=
  [.malloc 200 true, .calloc 3 8 true, .malloc 0 true, .write 0x20000110 7, .realloc 0x20000020 20 true,
    .realloc 0x20000110 500 true, .free 0x20000150, .free 0x20000150, .malloc 1000 false]

theorem malloc_sound_mixed :
    (mixedOps.foldl step fresh).live = [(0x20000180, 500), (0x20000020, 20)] ∧
      (∃ bs, Sound 0x20000000 (mixedOps.foldl step fresh) bs) ∧
      ReturnsZeroed ((mixedOps.foldl step fresh).heap.malloc 48 false) :=
  have hreach : Reach (Start 0x20000000) Allowed step (mixedOps.foldl step fresh) :=
    (Reach.start ⟨by decide, by decide, by decide, _, _, rfl⟩).obeys
      (show Obeys Allowed step fresh mixedOps by decide +kernel)
  ⟨by decide +kernel, (malloc_sound hreach).1,
    (malloc_sound hreach).2.1 48 false ⟨by decide, fun h => absurd h (by decide)⟩⟩

end MallocRun
end FermiOs
