import FermiOs.Library.Run

/-!
# Buffered output streams

The write side of `user/lib/stdio.c` and of the stream sink of `user/lib/printf.c`. A stream collects
bytes in a buffer and hands them to `write` when the buffer is full or flushed; a piece as large as
the buffer goes to `write` directly. That direct write does not flush what is already buffered, so the
bytes reach the descriptor in program order only in runs in which a large piece finds the buffer empty
or full.
-/

namespace FermiOs.Stdio
open Library List

/-- The descriptor: the bytes it has received, and what the coming `write` calls answer, an error or
the number of bytes they accept. After the last answer every byte offered is accepted. -/
structure Sink where
  out : List UInt8
  answers : List Int

/-- `FILE`, as far as writing uses it. `buf` holds the bytes `buf[0, wpos)`; `registered` says that
`stream_register` found a place in the table of `MAX_OPEN_STREAMS` streams. -/
structure Stream where
  sink : Sink
  buf : List UInt8
  bufSize : Nat
  base : Int
  writable : Bool
  err : Bool
  stderr : Bool
  registered : Bool

/-- `sys_write`. -/
def sysWrite (d : Sink) (data : List UInt8) : Int × Sink :=
  match d.answers with
  | [] => (data.length, { d with out := d.out ++ data })
  | n :: rest =>
    if n ≤ 0 then (n, { d with answers := rest })
    else (min n data.length, ⟨d.out ++ data.take n.toNat, rest⟩)

/-- The loop of `stream_flush_write`; each round hands over at least one byte, so that the number of
bytes bounds the rounds. -/
def flushLoop : Nat → List UInt8 → Sink → Bool × Sink
  | _, [], d => (true, d)
  | 0, _ :: _, d => (false, d)
  | n + 1, x :: data, d =>
    let r := sysWrite d (x :: data)
    if r.1 ≤ 0 then (false, r.2) else flushLoop n ((x :: data).drop r.1.toNat) r.2

/-- `stream_flush_write`: whether everything was written. After an error the buffer keeps all its
bytes. -/
def streamFlushWrite (f : Stream) : Bool × Stream :=
  if f.buf = [] then (true, f)
  else
    let r := flushLoop f.buf.length f.buf f.sink
    if r.1 then (true, { f with buf := [], base := f.base + f.buf.length, sink := r.2 })
    else (false, { f with err := true, sink := r.2 })

/-- `fflush`: a stream that is not in the table is refused. For a stream that only reads there is
nothing to write. -/
def fflush (f : Stream) : Bool × Stream :=
  if f.registered = false then (false, f)
  else if f.writable then streamFlushWrite f
  else (true, f)

/-- The loop of `fwrite`: the bytes not written and the stream. -/
def fwriteLoop : Nat → List UInt8 → Stream → List UInt8 × Stream
  | _, [], f => ([], f)
  | 0, x :: data, f => (x :: data, f)
  | n + 1, x :: data, f =>
    let g := if f.buf.length = f.bufSize then streamFlushWrite f else (true, f)
    if g.1 = false then (x :: data, g.2)
    -- large writes bypass the buffer
    else if g.2.bufSize ≤ (x :: data).length then
      let r := sysWrite g.2.sink (x :: data)
      if r.1 ≤ 0 then (x :: data, { g.2 with err := true, sink := r.2 })
      else fwriteLoop n ((x :: data).drop r.1.toNat)
        { g.2 with base := g.2.base + r.1, sink := r.2 }
    else
      let take := min (g.2.bufSize - g.2.buf.length) (x :: data).length
      fwriteLoop n ((x :: data).drop take) { g.2 with buf := g.2.buf ++ (x :: data).take take }

section
variable (f : Stream)

/-- `fwrite` of `nmemb` items of `size` bytes, whose bytes are `data`. -/
def fwrite (size nmemb : Nat) (data : List UInt8) : Nat × Stream :=
  if size = 0 ∨ nmemb = 0 ∨ f.writable = false then (0, f)
  else
    let r := fwriteLoop data.length data f
    ((data.length - r.1.length) / size, r.2)

/-- `fputc`: the byte, or `none` for `EOF`. `stderr` is not buffered. -/
def fputc (c : UInt8) : Option UInt8 × Stream :=
  if f.writable = false then (none, f)
  else if f.stderr then (some c, { f with sink := (sysWrite f.sink [c]).2 })
  else
    let g := if f.buf.length = f.bufSize then streamFlushWrite f else (true, f)
    if g.1 = false then (none, g.2) else (some c, { g.2 with buf := g.2.buf ++ [c] })

/-- `fputs`. -/
def fputs (s : List UInt8) : Bool × Stream :=
  let r := fwrite f 1 s.length s
  (r.1 == s.length, r.2)

/-- `sink_put` on a stream: one `putc` for each byte. -/
def sinkPut (data : List UInt8) : Stream :=
  data.foldl (fun f c => (fputc f c).2) f

/-- `vfprintf`, with the text `vformat` renders: every byte goes through `putc`, then the stream is
flushed. -/
def vfprintf (text : List UInt8) : Nat × Stream :=
  (text.length, (fflush (sinkPut f text)).2)

end

/-- A call on the stream. -/
inductive Call
  | fwrite (size nmemb : Nat) (data : List UInt8)
  | fputc (c : UInt8)
  | fputs (s : List UInt8)
  | fprintf (text : List UInt8)
  | fflush

def step (f : Stream) : Call → Stream
  | .fwrite size nmemb data => (fwrite f size nmemb data).2
  | .fputc c => (fputc f c).2
  | .fputs s => (fputs f s).2
  | .fprintf text => (vfprintf f text).2
  | .fflush => (fflush f).2

/-- The bytes a call writes. -/
def Call.piece : Call → List UInt8
  | .fwrite _ _ data => data
  | .fputc c => [c]
  | .fputs s => s
  | .fprintf text => text
  | .fflush => []

/-- A stream that was just opened for writing, whose writes will accept every byte. -/
structure Fresh (f : Stream) : Prop where
  out : f.sink.out = []
  answers : f.sink.answers = []
  buf : f.buf = []
  bufSize : 0 < f.bufSize
  writable : f.writable = true
  registered : f.registered = true
  stderr : f.stderr = true → f.bufSize = 1

/-- A piece as large as the buffer does not find bytes in a buffer that has room left. -/
def InOrder (f : Stream) (data : List UInt8) : Prop :=
  data.length < f.bufSize ∨ f.buf = [] ∨ f.buf.length = f.bufSize
deriving Decidable

/-- The call passes `nmemb` items of `size` bytes, and a large piece comes when nothing is buffered
or the buffer is full. -/
def Orderly (f : Stream) : Call → Prop
  | .fwrite size nmemb data => data.length = size * nmemb ∧ InOrder f data
  | .fputs s => InOrder f s
  | .fputc _ => True
  | .fprintf _ => True
  | .fflush => True

/-! ## Flushes that do not break off -/

/-- `n` bytes are accepted before a `write` fails. -/
def Enough : Nat → List Int → Prop
  | 0, _ => True
  | _ + 1, [] => True
  | n + 1, a :: answers => 0 < a ∧ Enough (n + 1 - a.toNat) answers

/-- No flush of `n` bytes fails after a part of them was accepted. -/
def FlushWhole (n : Nat) (answers : List Int) : Prop :=
  (∃ a ∈ answers.head?, a ≤ 0) ∨ Enough n answers

/-- A large piece comes in order, and the flush a piece causes does not break off. -/
structure Fits (f : Stream) (data : List UInt8) : Prop where
  order : InOrder f data
  whole : f.buf ≠ [] → f.bufSize < f.buf.length + data.length → FlushWhole f.bufSize f.sink.answers

/-- The flush a byte causes does not break off. -/
def PutsWhole (f : Stream) (_ : UInt8) : Prop :=
  f.buf.length = f.bufSize → FlushWhole f.bufSize f.sink.answers

/-- Pieces come in order, and no flush of the call fails after a part of the buffer was accepted. -/
def Unbroken (f : Stream) : Call → Prop
  | .fwrite _ _ data => Fits f data
  | .fputs s => Fits f s
  | .fputc c => PutsWhole f c
  | .fprintf text => Obeys PutsWhole (fun f c => (fputc f c).2) f text ∧
      FlushWhole (sinkPut f text).buf.length (sinkPut f text).sink.answers
  | .fflush => FlushWhole f.buf.length f.sink.answers

/-- What `fwrite` takes of a piece. -/
def fwriteTakes (f : Stream) (size nmemb : Nat) (data : List UInt8) : List UInt8 :=
  if size = 0 ∨ nmemb = 0 ∨ f.writable = false then []
  else data.take (data.length - (fwriteLoop data.length data f).1.length)

/-- What `putc` takes of a text, byte by byte. -/
def sinkTakes (f : Stream) : List UInt8 → List UInt8
  | [] => []
  | c :: text => (fputc f c).1.toList ++ sinkTakes (fputc f c).2 text

/-- The bytes a call puts into the stream: those it does not report as refused. -/
def takes (f : Stream) : Call → List UInt8
  | .fwrite size nmemb data => fwriteTakes f size nmemb data
  | .fputs s => fwriteTakes f 1 s.length s
  | .fputc c => (fputc f c).1.toList
  | .fprintf text => sinkTakes f text
  | .fflush => []

/-- The bytes a run puts into the stream. -/
def runTakes (f : Stream) : List Call → List UInt8
  | [] => []
  | c :: run => takes f c ++ runTakes (step f c) run

/-! ## What a stream has taken -/

/-- What no call changes: the buffer's size, whether the stream is in the table and whether it is
`stderr`; `sure` says that every `write` accepts all its bytes. -/
structure Fixed where
  bufSize : Nat
  registered : Bool
  stderr : Bool
  sure : Bool

/-- The stream has taken the bytes `w`: those the descriptor received, then those in the buffer. -/
structure Holds (k : Fixed) (f : Stream) (w : List UInt8) : Prop where
  bytes : f.sink.out ++ f.buf = w
  room : f.buf.length ≤ k.bufSize
  bufSize : f.bufSize = k.bufSize
  positive : 0 < k.bufSize
  writable : f.writable = true
  registered : f.registered = k.registered
  stderr : f.stderr = k.stderr
  unbuffered : k.stderr = true → f.buf = [] ∧ k.bufSize = 1 ∧ k.sure = true
  sure : k.sure = true → f.sink.answers = []

section
variable {k : Fixed} {f : Stream} {w data : List UInt8}

lemma Holds.edit (h : Holds k f w) {buf w' : List UInt8} {sink : Sink} (base : Int) (err : Bool)
    (hbytes : sink.out ++ buf = w') (hroom : buf.length ≤ k.bufSize) (he : k.stderr = true → buf = [])
    (hs : k.sure = true → sink.answers = []) :
    Holds k { f with buf := buf, sink := sink, base := base, err := err } w' :=
  ⟨hbytes, hroom, h.bufSize, h.positive, h.writable, h.registered, h.stderr,
    fun hk => ⟨he hk, (h.unbuffered hk).2⟩, hs⟩

lemma flushWhole_nil (n : Nat) : FlushWhole n [] := by
  cases n <;> exact .inr trivial

/-- A `write` fails and nothing is accepted, or it accepts at least one byte. -/
lemma sysWrite_cases (d : Sink) (hdata : data ≠ []) :
    (∃ a ∈ d.answers.head?, a ≤ 0 ∧ sysWrite d data = (a, ⟨d.out, d.answers.tail⟩)) ∨
      ∃ n, 0 < n ∧ n ≤ data.length ∧
        sysWrite d data = ((n : Int), ⟨d.out ++ data.take n, d.answers.tail⟩) ∧
        ∀ a, d.answers.head? = some a → n = min a.toNat data.length := by
  have hlen := length_pos_iff.mpr hdata
  obtain ⟨out, answers⟩ := d
  cases answers with
  | nil =>
    refine .inr ⟨data.length, hlen, le_rfl, ?_, nofun⟩
    rw [take_length]
    rfl
  | cons a rest =>
    by_cases ha : a ≤ 0
    · exact .inl ⟨a, rfl, ha, if_pos ha⟩
    · refine .inr ⟨min a.toNat data.length, by omega, min_le_right _ _, ?_, ?_⟩
      · have hmin : min a (data.length : Int) = ((min a.toNat data.length : Nat) : Int) := by omega
        dsimp only [sysWrite]
        rw [if_neg ha, hmin, ← take_take, take_length]
        rfl
      · rintro _ ⟨⟩
        rfl

lemma flushLoop_enough (n : Nat) {d : Sink} (hn : data.length ≤ n) (h : Enough data.length d.answers) :
    ∃ rest, flushLoop n data d = (true, ⟨d.out ++ data, rest⟩) ∧ (d.answers = [] → rest = []) := by
  induction n generalizing data d with
  | zero =>
    obtain rfl := length_eq_zero_iff.mp (Nat.le_zero.mp hn)
    exact ⟨d.answers, by rw [append_nil]; rfl, id⟩
  | succ n ih =>
    cases data with
    | nil => exact ⟨d.answers, by rw [append_nil]; rfl, id⟩
    | cons x data =>
      rcases sysWrite_cases d (cons_ne_nil x data) with ⟨a, ha, hle, -⟩ | ⟨m, hm, hml, hr, hmin⟩
      · -- the answer would have to be positive
        obtain ⟨out, _ | ⟨b, rest⟩⟩ := d
        · cases ha
        · obtain rfl := Option.some.inj ha
          exact absurd h.1 (by omega)
      · have hrest : Enough ((x :: data).drop m).length d.answers.tail := by
          obtain ⟨out, _ | ⟨b, rest⟩⟩ := d
          · cases ((x :: data).drop m).length <;> trivial
          · have heq : ((x :: data).drop m).length = data.length + 1 - b.toNat := by
              rw [length_drop, hmin b rfl, length_cons]
              omega
            rw [heq]
            exact h.2
        obtain ⟨rest, hloop, hnil⟩ := ih (d := ⟨d.out ++ (x :: data).take m, d.answers.tail⟩)
          (by rw [length_drop, length_cons] at *; omega) hrest
        refine ⟨rest, ?_, fun h0 => hnil (by rw [h0]; rfl)⟩
        rw [flushLoop, hr]
        rw [if_neg (by omega), Int.toNat_natCast, hloop, append_assoc, take_append_drop]

/-- A flush that does not break off empties the buffer or leaves everything as it was. -/
lemma Holds.flush (h : Holds k f w) (hw : FlushWhole f.buf.length f.sink.answers) :
    ∃ b g, streamFlushWrite f = (b, g) ∧ Holds k g w ∧
      (b = true ∧ g.buf = [] ∨ b = false ∧ k.sure = false) := by
  rw [streamFlushWrite]
  split_ifs with hnil
  · exact ⟨_, _, rfl, h, .inl ⟨rfl, hnil⟩⟩
  rcases hw with ⟨a, ha, hle⟩ | hen
  · have hsure : k.sure = false := by
      by_contra hs
      rw [h.sure (eq_true_of_ne_false hs)] at ha
      cases ha
    have hloop : flushLoop f.buf.length f.buf f.sink = (false, ⟨f.sink.out, f.sink.answers.tail⟩) := by
      obtain ⟨x, data, hbuf⟩ := exists_cons_of_ne_nil hnil
      rw [hbuf, length_cons, flushLoop]
      rcases sysWrite_cases f.sink (cons_ne_nil x data) with ⟨b, -, hb, hr⟩ | ⟨n, hn, -, hr, hmin⟩
      · rw [hr]
        exact if_pos hb
      · have := hmin a ha
        omega
    rw [hloop]
    refine ⟨_, _, rfl, h.edit _ true h.bytes h.room (fun hk => (h.unbuffered hk).1) fun hs => ?_,
      .inr ⟨rfl, hsure⟩⟩
    rw [hsure] at hs
    cases hs
  · obtain ⟨rest, hloop, hrest⟩ := flushLoop_enough _ le_rfl hen
    rw [hloop]
    refine ⟨_, _, rfl, h.edit _ _ ?_ (Nat.zero_le _) (fun _ => rfl) fun hs => hrest (h.sure hs),
      .inl ⟨rfl, rfl⟩⟩
    rw [append_nil]
    exact h.bytes

/-- Room is made when the buffer is full. -/
lemma Holds.makeRoom (h : Holds k f w)
    (hw : f.buf.length = f.bufSize → FlushWhole f.bufSize f.sink.answers) :
    ∃ b g, (if f.buf.length = f.bufSize then streamFlushWrite f else (true, f)) = (b, g) ∧
      Holds k g w ∧ (b = false ∧ k.sure = false ∨
        b = true ∧ g.buf.length < k.bufSize ∧ (g.buf = [] ∨ g = f ∧ f.buf.length ≠ f.bufSize)) := by
  by_cases hfull : f.buf.length = f.bufSize
  · obtain ⟨b, g, heq, hg, hb⟩ := h.flush (hfull ▸ hw hfull)
    rw [if_pos hfull]
    refine ⟨b, g, heq, hg, ?_⟩
    rcases hb with ⟨rfl, hnil⟩ | hfail
    · exact .inr ⟨rfl, by rw [hnil]; exact h.positive, .inl hnil⟩
    · exact .inl hfail
  · rw [if_neg hfull]
    exact ⟨_, _, rfl, h, .inr ⟨rfl, lt_of_le_of_ne h.room (h.bufSize ▸ hfull), .inr ⟨rfl, hfull⟩⟩⟩

/-- The loop takes the bytes from the front of the piece; only a failing `write` stops it. -/
lemma Holds.fwriteLoop (n : Nat) (h : Holds k f w) (hn : data.length ≤ n) (hfit : Fits f data) :
    ∃ taken rest g, fwriteLoop n data f = (rest, g) ∧ data = taken ++ rest ∧
      Holds k g (w ++ taken) ∧ (k.sure = true → rest = []) := by
  induction n generalizing data f w with
  | zero =>
    obtain rfl := length_eq_zero_iff.mp (Nat.le_zero.mp hn)
    exact ⟨[], [], f, rfl, rfl, by rwa [append_nil], fun _ => rfl⟩
  | succ n ih =>
    cases data with
    | nil => exact ⟨[], [], f, rfl, rfl, by rwa [append_nil], fun _ => rfl⟩
    | cons x data =>
      have hlen : (x :: data).length = data.length + 1 := rfl
      have hpos := h.positive
      have hsize := h.bufSize
      obtain ⟨b, g, heq, hg, hb⟩ := h.makeRoom fun hfull =>
        hfit.whole (by rintro h0; rw [h0, length_nil] at hfull; omega) (by omega)
      rw [Stdio.fwriteLoop, heq]
      -- a round that takes `m` bytes is followed by the rest of the loop
      have hround : ∀ (m : Nat) (f' : Stream), 0 < m → Holds k f' (w ++ (x :: data).take m) →
          Fits f' ((x :: data).drop m) → ∃ taken rest g',
            Stdio.fwriteLoop n ((x :: data).drop m) f' = (rest, g') ∧ x :: data = taken ++ rest ∧
            Holds k g' (w ++ taken) ∧ (k.sure = true → rest = []) := by
        intro m f' hm hf' hfit'
        obtain ⟨taken, rest, g', hloop, hsplit, hg', hdone⟩ := ih hf' (by rw [length_drop]; omega) hfit'
        refine ⟨(x :: data).take m ++ taken, rest, g', hloop, ?_, ?_, hdone⟩
        · rw [append_assoc, ← hsplit, take_append_drop]
        · rwa [← append_assoc]
      have hstop : ∀ g' : Stream, Holds k g' w → k.sure = false → ∃ taken rest g'',
          (x :: data, g') = (rest, g'') ∧ x :: data = taken ++ rest ∧ Holds k g'' (w ++ taken) ∧
          (k.sure = true → rest = []) := fun g' hg' hs =>
        ⟨[], _, g', rfl, rfl, by rwa [append_nil], fun h1 => nomatch hs.symm.trans h1⟩
      rcases hb with ⟨rfl, hs⟩ | ⟨rfl, hroom, hbuf⟩
      · exact hstop g hg hs
      dsimp only
      have hgs := hg.bufSize
      rw [if_neg Bool.noConfusion]
      by_cases hbig : g.bufSize ≤ (x :: data).length
      · -- the piece goes to the descriptor, behind an empty buffer
        have hempty : g.buf = [] := by
          rcases hbuf with hnil | ⟨rfl, hfull⟩
          · exact hnil
          · rcases hfit.order with hlt | hnil | hc
            · omega
            · exact hnil
            · exact absurd hc hfull
        have hbytes := hg.bytes
        rw [hempty, append_nil] at hbytes
        have hnone : k.stderr = true → g.buf = [] := fun _ => hempty
        rw [if_pos hbig]
        rcases sysWrite_cases g.sink (cons_ne_nil x data) with ⟨a, ha, hle, hr⟩ | ⟨m, hm, -, hr, -⟩
        · rw [hr]
          dsimp only
          rw [if_pos hle]
          have hsure : k.sure = false := by
            by_contra hs
            rw [hg.sure (eq_true_of_ne_false hs)] at ha
            cases ha
          exact hstop _ (hg.edit _ true hg.bytes hg.room hnone fun hs => by rw [hg.sure hs]; rfl) hsure
        · rw [hr]
          dsimp only
          rw [if_neg (by omega), Int.toNat_natCast]
          refine hround m _ hm (hg.edit _ _ ?_ hg.room hnone fun hs => by rw [hg.sure hs]; rfl)
            ⟨Or.inr (Or.inl hempty), fun hne => absurd hempty hne⟩
          rw [hempty, append_nil, hbytes]
      -- the buffer takes what fits
      rw [if_neg hbig]
      have htake := length_take (i := min (g.bufSize - g.buf.length) (x :: data).length) (l := x :: data)
      refine hround _ _ (by omega) (hg.edit _ _ ?_ ?_ ?_ hg.sure) ⟨Or.inl ?_, fun _ hover => ?_⟩
      · rw [← append_assoc, hg.bytes]
      · rw [length_append]
        omega
      · -- `stderr` has a buffer of one byte, so that every piece is large
        intro he
        have := (hg.unbuffered he).2.1
        omega
      · show (drop _ _).length < g.bufSize
        rw [length_drop]
        omega
      · dsimp only at hover ⊢
        rw [length_append, length_drop] at hover
        rcases hbuf with hnil | ⟨rfl, hfull⟩
        · rw [hnil, length_nil] at hover htake
          omega
        · refine hfit.whole (fun h0 => ?_) (by omega)
          rw [h0, length_nil] at hover htake
          omega

variable (h : Holds k f w)
include h

lemma Holds.fwrite {size nmemb : Nat} (hfit : Fits f data) :
    Holds k (fwrite f size nmemb data).2 (w ++ fwriteTakes f size nmemb data) ∧
      (k.sure = true → data.length = size * nmemb → fwriteTakes f size nmemb data = data) := by
  rw [Stdio.fwrite, fwriteTakes]
  by_cases hzero : size = 0 ∨ nmemb = 0 ∨ f.writable = false
  · rw [if_pos hzero, if_pos hzero]
    refine ⟨by rwa [append_nil], fun _ hlen => ?_⟩
    -- no bytes are asked for
    rcases hzero with rfl | rfl | hz
    · exact (length_eq_zero_iff.mp (hlen.trans (zero_mul _))).symm
    · exact (length_eq_zero_iff.mp hlen).symm
    · cases hz.symm.trans h.writable
  · obtain ⟨taken, rest, g, hloop, rfl, hg, hall⟩ := h.fwriteLoop _ (le_refl _) hfit
    rw [if_neg hzero, if_neg hzero, hloop, length_append, Nat.add_sub_cancel, take_left]
    refine ⟨hg, fun hs _ => ?_⟩
    rw [hall hs, append_nil]

lemma Holds.fputc (c : UInt8) (hw : PutsWhole f c) :
    Holds k (fputc f c).2 (w ++ (fputc f c).1.toList) ∧ (k.sure = true → (fputc f c).1 = some c) := by
  rw [Stdio.fputc, if_neg (by rw [h.writable]; exact Bool.noConfusion)]
  by_cases he : f.stderr = true
  · obtain ⟨hbuf, -, hs⟩ := h.unbuffered (h.stderr ▸ he)
    have hb := h.bytes
    rw [hbuf, append_nil] at hb
    rw [if_pos he, sysWrite, h.sure hs]
    refine ⟨h.edit _ _ ?_ h.room (fun _ => hbuf) fun _ => rfl, fun _ => rfl⟩
    rw [hbuf, append_nil, hb]
    rfl
  rw [if_neg he]
  obtain ⟨b, g, heq, hg, hb⟩ := h.makeRoom hw
  rw [heq]
  rcases hb with ⟨rfl, hs⟩ | ⟨rfl, hroom, -⟩
  · exact ⟨by rwa [if_pos rfl, Option.toList_none, append_nil], fun h1 => nomatch hs.symm.trans h1⟩
  · refine ⟨hg.edit _ _ ?_ ?_ (fun hk => absurd (h.stderr.trans hk) he) hg.sure, fun _ => rfl⟩
    · rw [← append_assoc, hg.bytes]
      rfl
    · rw [length_append]
      exact hroom

lemma Holds.fflush (hw : FlushWhole f.buf.length f.sink.answers) : Holds k (fflush f).2 w ∧
      (k.sure = true → k.registered = true → (fflush f).2.sink.out = w) := by
  rw [Stdio.fflush]
  by_cases hr : f.registered = false
  · rw [if_pos hr]
    exact ⟨h, fun _ hk => nomatch hr.symm.trans (h.registered.trans hk)⟩
  rw [if_neg hr, if_pos h.writable]
  obtain ⟨b, g, heq, hg, hb⟩ := h.flush hw
  rw [heq]
  refine ⟨hg, fun hs _ => ?_⟩
  rcases hb with ⟨-, hnil⟩ | ⟨-, hne⟩
  · rw [← hg.bytes, hnil, append_nil]
  · cases hne.symm.trans hs

lemma Holds.sinkPut {text : List UInt8} (ht : Obeys PutsWhole (fun f c => (Stdio.fputc f c).2) f text) :
    Holds k (sinkPut f text) (w ++ sinkTakes f text) ∧ (k.sure = true → sinkTakes f text = text) := by
  induction text generalizing f w with
  | nil => exact ⟨by rwa [sinkTakes, append_nil], fun _ => rfl⟩
  | cons c text ih =>
    obtain ⟨hc, hall⟩ := h.fputc c ht.1
    obtain ⟨hrest, hall'⟩ := ih hc ht.2
    rw [sinkTakes, ← append_assoc]
    refine ⟨hrest, fun hs => ?_⟩
    rw [hall hs, hall' hs]
    rfl

/-- A call appends what it takes to what the stream has taken. -/
lemma Holds.step {c : Call} (hc : Unbroken f c) : Holds k (step f c) (w ++ takes f c) := by
  cases c with
  | fwrite size nmemb data => exact (h.fwrite hc).1
  | fputs s => exact (h.fwrite hc).1
  | fputc c => exact (h.fputc c hc).1
  | fprintf text => exact ((h.sinkPut hc.1).1.fflush hc.2).1
  | fflush =>
    rw [takes, append_nil]
    exact (h.fflush hc).1

lemma Holds.run {run : List Call} (hrun : Obeys Unbroken Stdio.step f run) :
    Holds k (run.foldl Stdio.step f) (w ++ runTakes f run) := by
  induction run generalizing f w with
  | nil => rwa [runTakes, append_nil]
  | cons c run ih =>
    rw [runTakes, ← append_assoc]
    exact ih (h.step hrun.1) hrun.2

/-! ## Writes that accept every byte -/

variable (hs : k.sure = true)
include hs

lemma Holds.putsWhole (text : List UInt8) :
    Obeys PutsWhole (fun f c => (Stdio.fputc f c).2) f text := by
  induction text generalizing f w with
  | nil => trivial
  | cons c text ih =>
    have hc : PutsWhole f c := fun _ => h.sure hs ▸ flushWhole_nil _
    exact ⟨hc, ih (h.fputc c hc).1⟩

lemma Holds.unbroken {c : Call} (hc : Orderly f c) : Unbroken f c ∧ takes f c = c.piece := by
  have hnil : ∀ n, FlushWhole n f.sink.answers := fun n => h.sure hs ▸ flushWhole_nil n
  cases c with
  | fwrite size nmemb data =>
    have hfit : Fits f data := ⟨hc.2, fun _ _ => hnil _⟩
    exact ⟨hfit, (h.fwrite hfit).2 hs hc.1⟩
  | fputs s =>
    have hfit : Fits f s := ⟨hc, fun _ _ => hnil _⟩
    exact ⟨hfit, (h.fwrite hfit).2 hs (one_mul _).symm⟩
  | fputc c =>
    refine ⟨fun _ => hnil _, ?_⟩
    rw [takes, (h.fputc c fun _ => hnil _).2 hs]
    rfl
  | fprintf text =>
    obtain ⟨hput, hall⟩ := h.sinkPut (h.putsWhole hs text)
    exact ⟨⟨h.putsWhole hs text, hput.sure hs ▸ flushWhole_nil _⟩, hall hs⟩
  | fflush => exact ⟨hnil _, rfl⟩

lemma Holds.obeys {run : List Call} (hrun : Obeys Orderly Stdio.step f run) :
    Obeys Unbroken Stdio.step f run ∧ runTakes f run = run.flatMap Call.piece := by
  induction run generalizing f w with
  | nil => exact ⟨trivial, rfl⟩
  | cons c run ih =>
    obtain ⟨hc, htakes⟩ := h.unbroken hs hrun.1
    obtain ⟨hrest, heq⟩ := ih (h.step hc) hrun.2
    rw [runTakes, htakes, heq]
    exact ⟨⟨hc, hrest⟩, rfl⟩

end

/-- **Output in program order**: in every run in which large pieces find the buffer empty or full, the
descriptor has received a prefix of what was written, and all of it after a flush. -/
theorem output_in_order {f : Stream} (hf : Fresh f) {run : List Call} (h : Obeys Orderly step f run) :
    (run.foldl step f).sink.out <+: run.flatMap Call.piece ∧
      (step (run.foldl step f) .fflush).sink.out = run.flatMap Call.piece := by
  have h0 : Holds ⟨f.bufSize, true, f.stderr, true⟩ f [] :=
    ⟨by rw [hf.out, hf.buf]; rfl, by rw [hf.buf]; exact Nat.zero_le _, rfl, hf.bufSize, hf.writable,
      hf.registered, rfl, fun he => ⟨hf.buf, hf.stderr he, rfl⟩, fun _ => hf.answers⟩
  obtain ⟨hrun, htakes⟩ := h0.obeys rfl h
  have hend := h0.run hrun
  rw [nil_append, htakes] at hend
  exact ⟨⟨_, hend.bytes⟩, (hend.fflush (hend.sure rfl ▸ flushWhole_nil _)).2 rfl rfl⟩

/-- The stream `fopen` makes: a buffer of `STD_BUF_SIZE` bytes. -/
def opened : Stream :=
  { sink := ⟨[], []⟩, buf := [], bufSize := 512, base := 0, writable := true, err := false,
    stderr := false, registered := true }

instance (f : Stream) (c : Call) : Decidable (Orderly f c) := by
  cases c <;> dsimp only [Orderly] <;> infer_instance

lemma opened_fresh : Fresh opened := ⟨rfl, rfl, rfl, by decide, rfl, rfl, nofun⟩

/-- A large piece first, small ones after it. -/
def largeFirst : List Call :=
  [.fwrite 1 600 (replicate 600 1), .fputc 2, .fputs [3, 4], .fprintf [5]]

theorem output_in_order_largeFirst :
    (largeFirst.foldl step opened).sink.out <+: largeFirst.flatMap Call.piece ∧
      (step (largeFirst.foldl step opened) .fflush).sink.out = largeFirst.flatMap Call.piece :=
  output_in_order opened_fresh (by decide +kernel)

/-- One byte, then a piece of 512 bytes. -/
def largeLast : List Call := [.fputc 1, .fwrite 1 512 (replicate 512 2)]

/-- The large piece overtakes the byte that is still in the buffer. -/
theorem large_piece_overtakes : Fresh opened ∧
    ¬ (largeLast.foldl step opened).sink.out <+: largeLast.flatMap Call.piece :=
  ⟨opened_fresh, by decide +kernel⟩

/-! ## Retried flushes -/

/-- A stream that was just opened for writing and is buffered; its writes may answer anything. -/
structure Buffered (f : Stream) : Prop where
  out : f.sink.out = []
  buf : f.buf = []
  bufSize : 0 < f.bufSize
  writable : f.writable = true
  stderr : f.stderr = false

/-- **No byte twice**: in every run in which no flush fails after a part of the buffer was accepted,
and large pieces find the buffer empty or full, the descriptor has received a prefix of the bytes put
into the stream. -/
theorem output_not_repeated {f : Stream} (hf : Buffered f) {run : List Call}
    (h : Obeys Unbroken step f run) : (run.foldl step f).sink.out <+: runTakes f run := by
  have h0 : Holds ⟨f.bufSize, f.registered, false, false⟩ f [] :=
    ⟨by rw [hf.out, hf.buf]; rfl, by rw [hf.buf]; exact Nat.zero_le _, rfl, hf.bufSize, hf.writable,
      rfl, hf.stderr, nofun, nofun⟩
  exact ⟨_, (h0.run h).bytes⟩

/-- Two bytes and two flushes. -/
def flushTwice : List Call := [.fputc 1, .fputc 2, .fflush, .fflush]

/-- A first flush that is refused as a whole can be repeated. -/
theorem output_not_repeated_refused :
    (flushTwice.foldl step { opened with sink := ⟨[], [-5]⟩ }).sink.out <+:
      runTakes { opened with sink := ⟨[], [-5]⟩ } flushTwice :=
  output_not_repeated ⟨rfl, rfl, by decide, rfl, rfl⟩
    ⟨nofun, nofun, .inl ⟨-5, rfl, by decide⟩, .inr trivial, trivial⟩

/-- A flush of which one byte is accepted before the error is repeated from the start. -/
theorem flushed_byte_repeats : Buffered { opened with sink := ⟨[], [1, -5]⟩ } ∧
    (flushTwice.foldl step { opened with sink := ⟨[], [1, -5]⟩ }).sink.out = [1, 1, 2] ∧
    runTakes { opened with sink := ⟨[], [1, -5]⟩ } flushTwice = [1, 2] :=
  ⟨⟨rfl, rfl, by decide, rfl, rfl⟩, by decide +kernel, by decide +kernel⟩

end FermiOs.Stdio
