import FermiOs.Virtio.Queue

/-!
# Receive buffers of the network driver

The receive path of `pci/virtio/net/net.c`: `net_rx_init` posts eight buffers, `net_rx_poll` takes one
completion and posts its buffer again. Each post goes into the descriptor `free_head` names. That
descriptor is free when the device gives descriptors back in the order they were posted, and the queue
has at least one descriptor for each buffer; a device is free to complete them in any order.

The state keeps which descriptors the device owns. `net_rx_poll` is split where the device can act in
between: taking the completion, and posting the buffer again.
-/

namespace FermiOs.Virtio
open Library List Function
variable {b d : Nat}

/-- `NET_RX_BUF_COUNT` and `NET_RX_BUF_SIZE`. -/
def netRxBufCount : Nat := 8

@[inherit_doc netRxBufCount]
def netRxBufSize : Nat := 1600

/-- The receive queue: `descToBuf` is `rx_desc_to_buf`, `owned` lists the descriptors offered to the
device and not given back, `primed` counts the rounds of `net_rx_init` and `held` is the buffer
`net_rx_poll` has taken and not yet posted. -/
structure Rx where
  vq : Virtqueue
  base : Nat
  descToBuf : Nat → Option Nat
  owned : List Nat
  primed : Nat
  held : Option Nat

namespace Rx

/-- Physical address of a buffer. -/
def bufPa (s : Rx) (b : Nat) : Nat := s.base + b * netRxBufSize

/-- `net_rx_submit_buf`. -/
def netRxSubmitBuf (s : Rx) (b : Nat) : Rx :=
  let descId := s.vq.freeHead
  { s with
    vq := virtqueueSubmit s.vq (s.bufPa b) netRxBufSize descWrite
    descToBuf := update s.descToBuf descId (some b)
    owned := s.owned ++ [descId] }

/-- The first half of `net_rx_poll`: the next completion is taken, and its buffer if the descriptor
is recorded. -/
def take (s : Rx) : Rx :=
  if s.vq.lastUsed = s.vq.usedIdx then s
  else
    let descId := (s.vq.usedRing (s.vq.lastUsed % s.vq.size)).id
    let s' := { s with vq := { s.vq with lastUsed := (s.vq.lastUsed + 1) % 2 ^ 16 } }
    if virtqMaxSize ≤ descId then s'
    else
      match s.descToBuf descId with
      | none => s'
      | some b => { s' with descToBuf := update s.descToBuf descId none, held := some b }

/-- A step of the driver or of the device. -/
inductive Op
  /-- One round of the loop of `net_rx_init`. -/
  | prime
  /-- `net_rx_poll` takes a completion. -/
  | take
  /-- `net_rx_poll` posts the buffer it took. -/
  | rearm
  /-- The device completes the descriptor at this place among those it owns. -/
  | complete (i len : Nat)

def step (s : Rx) : Op → Rx
  | .prime => { netRxSubmitBuf s s.primed with primed := s.primed + 1 }
  | .take => s.take
  | .rearm =>
    match s.held with
    | none => s
    | some b => { netRxSubmitBuf s b with held := none }
  | .complete i len =>
    match s.owned[i]? with
    | none => s
    | some d => { s with vq := s.vq.giveBack ⟨d, len⟩, owned := s.owned.eraseIdx i }

/-- The driver's control flow: buffers are posted once each before the first poll, and a poll finishes
before the next one. -/
def Allowed (s : Rx) : Op → Prop
  | .prime => s.primed < netRxBufCount
  | .take => s.primed = netRxBufCount ∧ s.held = none
  | .rearm => s.held ≠ none
  | .complete i _ => i < s.owned.length

/-- The device completes what was posted first. -/
def FirstOut (_ : Rx) : Op → Prop
  | .complete i _ => i = 0
  | _ => True

/-- After `virtqueue_setup` with a device that offers `maxSize` descriptors. -/
def Initial (Sizes : Nat → Prop) (s : Rx) : Prop :=
  ∃ maxSize vq base, virtqueueSetup maxSize = some vq ∧ Sizes vq.size ∧
    s = ⟨vq, base, fun _ => none, [], 0, none⟩

/-- The descriptors given back and not yet taken. -/
def pending (s : Rx) : List Nat :=
  (range ((s.vq.usedIdx + 2 ^ 16 - s.vq.lastUsed) % 2 ^ 16)).map fun i =>
    (s.vq.usedRing ((s.vq.lastUsed + i) % 2 ^ 16 % s.vq.size)).id

/-- A descriptor that the device owns, or has given back to a poller that has not taken it yet, points
at buffer `b`. -/
def Posted (s : Rx) (d b : Nat) : Prop :=
  (d ∈ s.owned ∨ d ∈ s.pending) ∧ (s.vq.desc d).addr = s.bufPa b

/-- No descriptor the device owns is about to be overwritten, and each buffer posted so far is in one
descriptor or held by the poller. -/
def Safe (s : Rx) : Prop :=
  (s.primed < netRxBufCount ∨ s.held ≠ none → s.vq.freeHead ∉ s.owned) ∧
    ∀ b < s.primed, if s.held = some b then ∀ d, ¬ s.Posted d b else ∃! d, s.Posted d b

/-! ## The window of posted descriptors -/

/-- While the device is first-in, first-out, the descriptors in use are a window that moves around the
table: `T` have been taken by the poller since the start, `C` given back by the device, and `bufs` are
the buffers of those not taken, in the order they were posted. -/
structure Window (vq : Virtqueue) (pa : Nat → Nat) (descToBuf : Nat → Option Nat) (owned : List Nat)
    (T C : Nat) (bufs : List Nat) : Prop where
  size : vq.size = 8 ∨ vq.size = 16
  length : bufs.length ≤ 8
  taken : T ≤ C
  given : C ≤ T + bufs.length
  freeHead : vq.freeHead = (T + bufs.length) % vq.size
  lastUsed : vq.lastUsed = T % 2 ^ 16
  usedIdx : vq.usedIdx = C % 2 ^ 16
  owned : owned = (List.range' C (T + bufs.length - C)).map (· % vq.size)
  used : ∀ u, T ≤ u → u < C → (vq.usedRing (u % vq.size)).id = u % vq.size
  posted : ∀ i b, bufs[i]? = some b →
    (vq.desc ((T + i) % vq.size)).addr = pa b ∧ descToBuf ((T + i) % vq.size) = some b

section
variable {vq : Virtqueue} {pa : Nat → Nat} {descToBuf : Nat → Option Nat} {owned : List Nat}
  {T C : Nat} {bufs : List Nat} (h : Window vq pa descToBuf owned T C bufs)
include h

/-- Places of the window closer than the queue size are different descriptors. -/
lemma Window.mod_ne {u v : Nat} (huv : u < v) (hlt : v < u + 8) : u % vq.size ≠ v % vq.size := by
  rcases h.size with hn | hn <;> rw [hn] <;> omega

lemma Window.mem_owned : d ∈ owned ↔ ∃ u, C ≤ u ∧ u < T + bufs.length ∧ d = u % vq.size := by
  rw [h.owned, mem_map]
  constructor
  · rintro ⟨u, hu, rfl⟩
    rw [mem_range'_1] at hu
    exact ⟨u, hu.1, by omega, rfl⟩
  · rintro ⟨u, h1, h2, rfl⟩
    exact ⟨u, mem_range'_1.mpr ⟨h1, by omega⟩, rfl⟩

/-- With a buffer out of the window, the next descriptor is not the device's. -/
lemma Window.freeHead_notMem (hlen : bufs.length < 8) : vq.freeHead ∉ owned := by
  rw [h.mem_owned, h.freeHead]
  rintro ⟨u, h1, h2, h3⟩
  have := h.taken
  exact h.mod_ne h2 (by omega) h3.symm

lemma Window.submit (hlen : bufs.length < 8) (b len flags : Nat) :
    Window (virtqueueSubmit vq (pa b) len flags) pa
      (update descToBuf vq.freeHead (some b)) (owned ++ [vq.freeHead]) T C (bufs ++ [b]) := by
  have hge := h.given
  refine ⟨h.size, ?_, h.taken, ?_, ?_, h.lastUsed, h.usedIdx, ?_, h.used, ?_⟩
  · rw [length_append]
    exact hlen
  · rw [length_append]
    omega
  · rw [length_append]
    show (vq.freeHead + 1) % vq.size = (T + (bufs.length + 1)) % vq.size
    rw [h.freeHead, Nat.mod_add_mod, add_assoc]
  · show _ = (List.range' C (T + (bufs ++ [b]).length - C)).map (· % vq.size)
    rw [h.owned, h.freeHead, length_append, length_singleton,
      show T + (bufs.length + 1) - C = (T + bufs.length - C) + 1 by omega, List.range'_1_concat,
      map_append, map_singleton, show C + (T + bufs.length - C) = T + bufs.length by omega]
  intro i c hc
  show (update vq.desc vq.freeHead _ ((T + i) % vq.size)).addr = pa c ∧
    update descToBuf vq.freeHead (some b) ((T + i) % vq.size) = some c
  rw [h.freeHead]
  rcases lt_trichotomy i bufs.length with hi | rfl | hi
  · rw [getElem?_append_left hi] at hc
    have hne : (T + i) % vq.size ≠ (T + bufs.length) % vq.size := h.mod_ne (by omega) (by omega)
    rw [update_of_ne hne, update_of_ne hne]
    exact h.posted i c hc
  · rw [getElem?_concat_length] at hc
    cases hc
    rw [update_self, update_self]
    exact ⟨rfl, rfl⟩
  · rw [getElem?_eq_none (by rw [length_append]; exact hi)] at hc
    cases hc

/-- The device gives back the oldest descriptor. -/
lemma Window.giveBack (hd : owned[0]? = some d) (len : Nat) :
    Window (vq.giveBack ⟨d, len⟩) pa descToBuf (owned.eraseIdx 0) T (C + 1) bufs := by
  have hlt : C < T + bufs.length := by
    by_contra hc
    rw [h.owned, show T + bufs.length - C = 0 by omega] at hd
    cases hd
  have hsplit : T + bufs.length - C = (T + bufs.length - (C + 1)) + 1 := by omega
  have howned := h.owned
  rw [hsplit, List.range'_succ, map_cons] at howned
  have hdC : d = C % vq.size := by
    rw [howned] at hd
    exact (Option.some.inj hd).symm
  have hslot : vq.usedIdx % vq.size = C % vq.size := by
    rw [h.usedIdx]
    rcases h.size with hn | hn <;> rw [hn] <;> omega
  have htaken := h.taken
  have hbound := h.length
  refine ⟨h.size, h.length, by omega, hlt, h.freeHead, h.lastUsed, ?_, ?_, ?_, h.posted⟩
  · show (vq.usedIdx + 1) % 2 ^ 16 = (C + 1) % 2 ^ 16
    rw [h.usedIdx, Nat.mod_add_mod]
  · rw [howned]
    rfl
  intro u hu1 hu2
  show (update vq.usedRing (vq.usedIdx % vq.size) _ (u % vq.size)).id = u % vq.size
  rw [hslot]
  rcases Nat.lt_succ_iff_lt_or_eq.mp hu2 with hu | rfl
  · rw [update_of_ne (h.mod_ne hu (by omega))]
    exact h.used u hu1 hu
  · rw [update_self]
    exact hdC

/-- The poller takes the oldest completion. -/
lemma Window.next (hlt : T < C) :
    ∃ b rest, bufs = b :: rest ∧ (vq.usedRing (vq.lastUsed % vq.size)).id = T % vq.size ∧
      descToBuf (T % vq.size) = some b ∧
      Window { vq with lastUsed := (vq.lastUsed + 1) % 2 ^ 16 } pa
        (update descToBuf (T % vq.size) none) owned (T + 1) C rest := by
  have hgiven := h.given
  cases bufs with
  | nil =>
    simp only [length_nil] at hgiven
    omega
  | cons b rest =>
    have hlen := h.length
    have hfree := h.freeHead
    have hown := h.owned
    simp only [length_cons] at hgiven hlen hfree hown
    have hslot : vq.lastUsed % vq.size = T % vq.size := by
      rw [h.lastUsed]
      rcases h.size with hn | hn <;> rw [hn] <;> omega
    refine ⟨b, rest, rfl, ?_, (h.posted 0 b rfl).2, h.size, by omega, hlt, by omega, ?_, ?_,
      h.usedIdx, ?_, fun u hu1 hu2 => h.used u (by omega) hu2, ?_⟩
    · rw [hslot]
      exact h.used T (le_refl T) hlt
    · show vq.freeHead = (T + 1 + rest.length) % vq.size
      rw [hfree, add_right_comm, add_assoc]
    · show (vq.lastUsed + 1) % 2 ^ 16 = (T + 1) % 2 ^ 16
      rw [h.lastUsed, Nat.mod_add_mod]
    · rw [hown, add_right_comm, add_assoc]
    intro i c hc
    have hpost := h.posted (i + 1) c hc
    have hi : i < rest.length := (List.getElem?_eq_some_iff.mp hc).1
    rw [show T + 1 + i = T + (i + 1) by omega]
    refine ⟨hpost.1, ?_⟩
    rw [update_of_ne (h.mod_ne (by omega) (by omega)).symm]
    exact hpost.2

end

/-! ## Every run of a first-in, first-out device -/

/-- The window, with each buffer posted so far in it or held by the poller. -/
def Inv (s : Rx) : Prop :=
  ∃ T C bufs, Window s.vq s.bufPa s.descToBuf s.owned T C bufs ∧
    (s.held.toList ++ bufs).Perm (range s.primed) ∧ s.primed ≤ 8 ∧
    (s.held ≠ none → s.primed = 8)

section
variable {s : Rx} {T C : Nat} {bufs : List Nat}

/-- The descriptors in use are the window. -/
lemma mem_inUse (h : Window s.vq s.bufPa s.descToBuf s.owned T C bufs) :
    d ∈ s.owned ∨ d ∈ s.pending ↔ ∃ i < bufs.length, d = (T + i) % s.vq.size := by
  have htaken := h.taken
  have hgiven := h.given
  have hlen := h.length
  have hcount : (s.vq.usedIdx + 2 ^ 16 - s.vq.lastUsed) % 2 ^ 16 = C - T := by
    rw [h.usedIdx, h.lastUsed]
    omega
  have hpending : d ∈ s.pending ↔ ∃ i < C - T, d = (T + i) % s.vq.size := by
    rw [pending, hcount, mem_map]
    -- a used entry of the window names the descriptor at its place
    have hid : ∀ i < C - T, (s.vq.usedRing ((s.vq.lastUsed + i) % 2 ^ 16 % s.vq.size)).id =
        (T + i) % s.vq.size := by
      intro i hi
      have hmod : (s.vq.lastUsed + i) % 2 ^ 16 % s.vq.size = (T + i) % s.vq.size := by
        rw [h.lastUsed]
        rcases h.size with hn | hn <;> rw [hn] <;> omega
      rw [hmod]
      exact h.used (T + i) (by omega) (by omega)
    constructor
    · rintro ⟨i, hi, rfl⟩
      exact ⟨i, mem_range.mp hi, hid i (mem_range.mp hi)⟩
    · rintro ⟨i, hi, rfl⟩
      exact ⟨i, mem_range.mpr hi, hid i hi⟩
  rw [h.mem_owned, hpending]
  constructor
  · rintro (⟨u, h1, h2, rfl⟩ | ⟨i, hi, rfl⟩)
    · exact ⟨u - T, by omega, by rw [show T + (u - T) = u by omega]⟩
    · exact ⟨i, by omega, rfl⟩
  · rintro ⟨i, hi, rfl⟩
    by_cases hC : C ≤ T + i
    · exact .inl ⟨T + i, hC, by omega, rfl⟩
    · exact .inr ⟨i, by omega, rfl⟩

lemma bufPa_inj {c : Nat} (h : s.bufPa b = s.bufPa c) : b = c := by
  simp only [bufPa, netRxBufSize] at h
  omega

/-- A posted buffer is in the window. -/
lemma posted_iff (h : Window s.vq s.bufPa s.descToBuf s.owned T C bufs) :
    s.Posted d b ↔ ∃ i, bufs[i]? = some b ∧ d = (T + i) % s.vq.size := by
  rw [Posted, mem_inUse h]
  constructor
  · rintro ⟨⟨i, hi, rfl⟩, haddr⟩
    have hget : bufs[i]? = some bufs[i] := getElem?_eq_getElem hi
    rw [(h.posted i _ hget).1] at haddr
    exact ⟨i, by rw [hget, bufPa_inj haddr], rfl⟩
  · rintro ⟨i, hb, rfl⟩
    exact ⟨⟨i, (List.getElem?_eq_some_iff.mp hb).1, rfl⟩, (h.posted i b hb).1⟩

variable (h : s.Inv)
include h

lemma Inv.safe : s.Safe := by
  obtain ⟨T, C, bufs, hw, hperm, hprimed, hheld⟩ := h
  have hlen := hperm.length_eq
  rw [length_append, length_range] at hlen
  have hnodup : (s.held.toList ++ bufs).Nodup := hperm.nodup_iff.mpr nodup_range
  constructor
  · rintro (hlt | hne)
    · refine hw.freeHead_notMem ?_
      simp only [netRxBufCount] at hlt
      omega
    refine hw.freeHead_notMem ?_
    obtain ⟨b, hb⟩ := Option.ne_none_iff_exists'.mp hne
    simp only [hb, Option.toList_some, length_singleton] at hlen
    omega
  intro b hb
  have hmem : b ∈ s.held.toList ++ bufs := hperm.mem_iff.mpr (mem_range.mpr hb)
  split
  · -- the buffer is with the poller, and only there
    rename_i hhold
    intro d hd
    obtain ⟨i, hi, -⟩ := (posted_iff hw).mp hd
    rw [hhold] at hnodup
    exact (nodup_cons.mp hnodup).1 (mem_of_getElem? hi)
  rename_i hhold
  have hin : b ∈ bufs := by
    rcases mem_append.mp hmem with hh | hh
    · exact absurd (Option.mem_toList.mp hh) hhold
    · exact hh
  obtain ⟨i, hi⟩ := mem_iff_getElem?.mp hin
  refine ⟨(T + i) % s.vq.size, (posted_iff hw).mpr ⟨i, hi, rfl⟩, fun d hd => ?_⟩
  obtain ⟨j, hj, rfl⟩ := (posted_iff hw).mp hd
  -- the window has each buffer once
  have hbufs := (nodup_append.mp hnodup).2.1
  have hij : j = i := by
    obtain ⟨hj', hjb⟩ := List.getElem?_eq_some_iff.mp hj
    obtain ⟨hi', hib⟩ := List.getElem?_eq_some_iff.mp hi
    exact (List.Nodup.getElem_inj_iff hbufs).mp (hjb.trans hib.symm)
  rw [hij]

lemma Inv.prime (ha : s.primed < netRxBufCount) : (s.step .prime).Inv := by
  obtain ⟨T, C, bufs, hw, hperm, hprimed, hheld⟩ := h
  simp only [netRxBufCount] at ha
  have hnone : s.held = none := by
    by_contra hne
    have := hheld hne
    omega
  rw [hnone] at hperm
  have hlen : bufs.length = s.primed := by
    rw [← length_range (n := s.primed)]
    exact hperm.length_eq
  refine ⟨T, C, bufs ++ [s.primed], hw.submit (by omega) s.primed netRxBufSize descWrite, ?_, ?_, ?_⟩
  · show (s.held.toList ++ _).Perm (range (s.primed + 1))
    rw [hnone, range_succ]
    exact hperm.append_right _
  · exact ha
  · exact fun hne => absurd hnone hne

lemma Inv.take (hp : s.primed = netRxBufCount) (ha : s.held = none) : s.take.Inv := by
  rw [Rx.take]
  split_ifs with hne
  · exact h
  obtain ⟨T, C, bufs, hw, hperm, hprimed, hheld⟩ := h
  have hlt : T < C := by
    refine lt_of_le_of_ne hw.taken fun heq => hne ?_
    rw [hw.lastUsed, hw.usedIdx, heq]
  obtain ⟨b, rest, rfl, hid, hbuf, hnext⟩ := hw.next hlt
  have hsmall : ¬ virtqMaxSize ≤ T % s.vq.size := by
    simp only [virtqMaxSize]
    rcases hw.size with hn | hn <;> rw [hn] <;> omega
  rw [hid, if_neg hsmall, hbuf]
  refine ⟨T + 1, C, rest, hnext, ?_, hprimed, fun _ => ?_⟩
  · rw [ha] at hperm
    exact hperm
  · exact hp

lemma Inv.rearm (hb : s.held = some b) : Inv { netRxSubmitBuf s b with held := none } := by
  obtain ⟨T, C, bufs, hw, hperm, hprimed, hheld⟩ := h
  rw [hb] at hperm
  have hlen := hperm.length_eq
  rw [Option.toList_some, length_append, length_singleton, length_range] at hlen
  refine ⟨T, C, bufs ++ [b], hw.submit (by omega) b netRxBufSize descWrite, ?_, hprimed, ?_⟩
  · show (bufs ++ [b]).Perm (range s.primed)
    exact perm_append_comm.trans hperm
  · exact fun hne => absurd rfl hne

lemma Inv.complete (hd : s.owned[0]? = some d) (len : Nat) :
    Inv { s with vq := s.vq.giveBack ⟨d, len⟩, owned := s.owned.eraseIdx 0 } := by
  obtain ⟨T, C, bufs, hw, hrest⟩ := h
  exact ⟨T, C + 1, bufs, hw.giveBack hd len, hrest⟩

lemma Inv.step {op : Op} (ha : s.Allowed op) (hf : s.FirstOut op) : (s.step op).Inv := by
  cases op with
  | prime => exact h.prime ha
  | take => exact h.take ha.1 ha.2
  | rearm =>
    rw [Rx.step]
    cases hb : s.held with
    | none => exact h
    | some b => exact h.rearm hb
  | complete i len =>
    have hi : i = 0 := hf
    subst hi
    rw [Rx.step]
    cases hd : s.owned[0]? with
    | none => exact h
    | some d => exact h.complete hd len

end

/-- **The receive queue is safe** for queues of 8 or 16 descriptors whose device completes descriptors
in the order they were posted. -/
theorem rx_safe {s : Rx} (h : Reach (Initial fun n => n = 8 ∨ n = 16)
    (fun s op => s.Allowed op ∧ s.FirstOut op) step s) : s.Safe := by
  refine Inv.safe (Reach.invariant Inv ?_ (fun s op hs ha => hs.step ha.1 ha.2) h)
  rintro s ⟨maxSize, vq, base, hvq, hsize, rfl⟩
  cases (Option.ite_none_left_eq_some.mp hvq).2
  refine ⟨0, 0, [], ⟨hsize, Nat.zero_le _, le_rfl, Nat.zero_le _, ?_, rfl, rfl, rfl, ?_, ?_⟩,
    List.Perm.refl _, Nat.zero_le _, fun hne => absurd rfl hne⟩
  · exact (Nat.zero_mod _).symm
  · intro u _ hu
    omega
  · intro i b hb
    cases hb

instance (s : Rx) (op : Op) : Decidable (s.Allowed op) := by
  cases op <;> dsimp only [Allowed] <;> infer_instance

instance (s : Rx) (op : Op) : Decidable (s.FirstOut op) := by
  cases op <;> dsimp only [FirstOut] <;> infer_instance

/-- The queue a device with 256 descriptors gets. -/
def ready : Rx :=
  { vq := { size := 16, freeHead := 0, lastUsed := 0, desc := fun _ => ⟨0, 0, 0, 0⟩, availIdx := 0,
            availRing := fun _ => 0, usedIdx := 0, usedRing := fun _ => ⟨0, 0⟩ }
    base := 0x1000, descToBuf := fun _ => none, owned := [], primed := 0, held := none }

lemma ready_initial (Sizes : Nat → Prop) (h : Sizes 16) : Initial Sizes ready :=
  ⟨256, ready.vq, ready.base, rfl, h, rfl⟩

/-- Eight buffers are posted, two packets arrive, one is taken and its buffer posted again. -/
def twoPackets : List Op :=
  replicate 8 .prime ++ [.complete 0 60, .complete 0 60, .take, .rearm]

theorem rx_safe_twoPackets : Safe (twoPackets.foldl step ready) :=
  rx_safe (Reach.obeys (.start (ready_initial _ (.inr rfl))) (by decide +kernel))

/-- The device keeps the first descriptor and completes the second each time. -/
def firstKept : List Op :=
  replicate 8 .prime ++ ((replicate 8 [.complete 1 60, .take, .rearm]).flatten ++
    [.complete 1 60, .take])

/-- After eight packets the next buffer goes into the first descriptor, which the device still owns. -/
theorem submit_overwrites_owned : ∃ s, Reach (Initial fun _ => True) Allowed step s ∧ ¬ s.Safe := by
  have h0 : Reach (Initial fun _ => True) Allowed step ready := .start (ready_initial _ trivial)
  refine ⟨firstKept.foldl step ready, h0.obeys (by decide +kernel), fun h => ?_⟩
  exact h.1 (.inr (by decide +kernel)) (by decide +kernel)

end Rx
end FermiOs.Virtio
