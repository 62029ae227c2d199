import Mathlib.Tactic

/-!
# Listings that resume at a cookie

A reader takes a cookie and delivers one item with the cookie behind it, or reports the end. Buffers of
arbitrary sizes are filled by calling it until an item does not fit; that item is left for the next
buffer. What a whole session delivers is determined by the items the reader lists: the buffers hold
those items and no others, in order and without repetition, and a buffer stays empty only at the end
or if the next item does not fit.
-/

namespace FermiOs.Library
open List

universe u

variable {α : Type u}

/-- From cookie `c` on the reader delivers these items, and then stays at the end. -/
def Lists (next : Nat → Nat × Option α) : List α → Nat → Prop
  | [], c => ∃ c', next c = (c', none) ∧ next c' = (c', none)
  | x :: xs, c => ∃ c', next c = (c', some x) ∧ Lists next xs c'

/-- Fill a buffer of size `room` of which `used` is taken: the new cookie and the items with the
cookies behind them. -/
def fill (next : Nat → Nat × Option α) (size : α → Nat) (room : Nat) :
    Nat → Nat → Nat → Nat × List (α × Nat)
  | 0, c, _ => (c, [])
  | n + 1, c, used =>
    if room ≤ used then (c, [])
    else
      match next c with
      | (c', none) => (c', [])
      | (c', some x) =>
        if room < used + size x then (c, [])
        else
          let r := fill next size room n c' (used + size x)
          (r.1, (x, c') :: r.2)

/-- The buffers of a session. -/
def session (next : Nat → Nat × Option α) (size : α → Nat) : List Nat → Nat → List (List (α × Nat))
  | [], _ => []
  | room :: rooms, c =>
    let r := fill next size room room c 0
    r.2 :: session next size rooms r.1

/-- The buffers hold the items in order, and one of them is empty only at the end or if the next item
does not fit. -/
def Delivers (size : α → Nat) : List α → List Nat → List (List α) → Prop
  | _, [], [] => True
  | xs, room :: rooms, ys :: rest =>
    ys = xs.take ys.length ∧ (ys = [] → ∀ x ∈ xs.head?, room < size x) ∧
      Delivers size (xs.drop ys.length) rooms rest
  | _, _, _ => False

variable {c c' : Nat} {xs ys : List α}

section
variable {next : Nat → Nat × Option α} {size : α → Nat}

/-- Equal answers list the same. -/
lemma Lists.congr (heq : next c = next c') (h : Lists next xs c') : Lists next xs c := by
  cases xs with
  | nil =>
    obtain ⟨e, he, hstay⟩ := h
    exact ⟨e, heq.trans he, hstay⟩
  | cons x xs =>
    obtain ⟨e, he, hrest⟩ := h
    exact ⟨e, heq.trans he, hrest⟩

lemma Lists.map {β : Type u} (g : α → β) (h : Lists next xs c) :
    Lists (fun c => ((next c).1, (next c).2.map g)) (xs.map g) c := by
  induction xs generalizing c with
  | nil =>
    obtain ⟨e, he, hstay⟩ := h
    exact ⟨e, congrArg (Prod.map id (Option.map g)) he, congrArg (Prod.map id (Option.map g)) hstay⟩
  | cons x xs ih =>
    obtain ⟨e, he, hrest⟩ := h
    exact ⟨e, congrArg (Prod.map id (Option.map g)) he, ih hrest⟩

section
variable (hpos : ∀ x, 0 < size x)
include hpos

/-- One buffer: a first part of the items, and the cookie lists the rest. -/
lemma fill_lists {room : Nat} (n : Nat) : ∀ {xs : List α} {c used : Nat},
    Lists next xs c → room ≤ used + n →
    let r := fill next size room n c used
    r.2.map Prod.fst = xs.take r.2.length ∧ Lists next (xs.drop r.2.length) r.1 ∧
      (r.2 = [] → used < room → ∀ x ∈ xs.head?, room < used + size x) := by
  induction n with
  | zero =>
    intro xs c used h hroom
    exact ⟨rfl, h, fun _ hlt => by omega⟩
  | succ n ih =>
    intro xs c used h hroom
    rw [fill]
    split
    · exact ⟨rfl, h, fun _ hlt => by omega⟩
    cases xs with
    | nil =>
      obtain ⟨c', heq, hstay⟩ := h
      rw [heq]
      exact ⟨rfl, ⟨c', hstay, hstay⟩, nofun⟩
    | cons x xs =>
      have hx := h
      obtain ⟨c', heq, hrest⟩ := hx
      rw [heq]
      dsimp only
      split_ifs with hfull
      · refine ⟨rfl, h, fun _ _ y hy => ?_⟩
        obtain rfl := Option.some.inj hy
        exact hfull
      have hgrow := hpos x
      obtain ⟨htake, hdrop, -⟩ := ih hrest (by omega : room ≤ used + size x + n)
      refine ⟨?_, hdrop, nofun⟩
      rw [map_cons, htake]
      rfl

/-- A session delivers what the reader lists. -/
lemma session_delivers (rooms : List Nat) : ∀ {xs : List α} {c : Nat},
    Lists next xs c → Delivers size xs rooms ((session next size rooms c).map (map Prod.fst)) := by
  induction rooms with
  | nil => exact fun _ => trivial
  | cons room rooms ih =>
    intro xs c h
    obtain ⟨htake, hrest, hempty⟩ := fill_lists hpos room h (by omega : room ≤ 0 + room)
    rw [session, map_cons]
    refine ⟨by rw [length_map]; exact htake, fun hnil x hx => ?_, ?_⟩
    · rcases Nat.eq_zero_or_pos room with rfl | hroom
      · exact hpos x
      · have hfull := hempty (map_eq_nil_iff.mp hnil) hroom x hx
        omega
    · rw [length_map]
      exact ih hrest

/-- A buffer with room for just the next item takes just that. -/
lemma fill_one {x : α} (h : next c = (c', some x)) :
    fill next size (size x) (size x) c 0 = (c', [(x, c')]) := by
  obtain ⟨n, hn⟩ : ∃ n, size x = n + 1 := ⟨size x - 1, by have := hpos x; omega⟩
  have hstop : ∀ m, fill next size (size x) m c' (size x) = (c', []) := by
    intro m
    cases m with
    | zero => rfl
    | succ m => rw [fill, if_pos le_rfl]
  have hfirst : fill next size (size x) (n + 1) c 0 = (c', [(x, c')]) := by
    rw [fill, if_neg (by omega), h]
    dsimp only
    rw [zero_add, if_neg (lt_irrefl _), hstop]
  rw [← hn] at hfirst
  exact hfirst

/-- Only what the reader lists is delivered by every session. -/
lemma lists_of_delivers : ∀ {ys : List α} {c : Nat}, Lists next xs c →
    (∀ rooms, Delivers size ys rooms ((session next size rooms c).map (map Prod.fst))) →
    xs = ys := by
  induction xs with
  | nil =>
    intro ys c h hall
    obtain ⟨c', heq, -⟩ := h
    cases ys with
    | nil => rfl
    | cons y ys =>
      -- a buffer with room for the next item stays empty
      have hempty : (fill next size (size y) (size y) c 0).2 = [] := by
        obtain ⟨n, hn⟩ : ∃ n, size y = n + 1 := ⟨size y - 1, by have := hpos y; omega⟩
        rw [hn, fill, if_neg (by omega), heq]
      have hone := (hall [size y]).2.1 (by rw [hempty]; rfl) y rfl
      omega
  | cons x xs ih =>
    intro ys c h hall
    obtain ⟨c', heq, hrest⟩ := h
    have hfill := fill_one hpos heq
    have hfirst := fun rooms => hall (size x :: rooms)
    simp only [session, hfill, map_cons, map_nil] at hfirst
    cases ys with
    | nil => cases (hfirst []).1
    | cons y ys =>
      obtain rfl : x = y := (List.cons.inj (hfirst []).1).1
      exact congrArg (x :: ·) (ih hrest fun rooms => (hfirst rooms).2.2)

/-- **Sessions.** Every session delivers a list of items exactly if it is the one the reader lists. -/
theorem delivers_iff (h : Lists next xs c) :
    (∀ rooms, Delivers size ys rooms ((session next size rooms c).map (map Prod.fst))) ↔ xs = ys := by
  refine ⟨lists_of_delivers hpos h, ?_⟩
  rintro rfl rooms
  exact session_delivers hpos rooms h

end

lemma Lists.unique (h : Lists next xs c) (h' : Lists next ys c) : xs = ys :=
  lists_of_delivers (fun _ => Nat.one_pos) h fun rooms => session_delivers (fun _ => Nat.one_pos) rooms h'

end
end FermiOs.Library
