import FermiOs.Fs.Fat32.Create

/-!
# The vnode tree and the volume

A vnode of the file system stands for an entry: it was found under its name in the directory its parent
stands for, and it keeps the first cluster of that entry. What ties vnodes and volume together is a
matter of names, types, parents and first clusters only, the `Shape` of a vnode; sizes are cached
separately.
-/

namespace FermiOs.Fat32
open Library List

/-! ## Shapes -/

/-- All of a vnode but its size. -/
structure Shape where
  name : List UInt8
  type : VnodeType
  parent : Option Nat
  first : Option Nat

def Vnode.shape (n : Vnode) : Shape := ⟨n.name, n.type, n.parent, n.priv.map Priv.first⟩

/-- The shape of each vnode. -/
def shapes (nodes : List Vnode) (i : Nat) : Option Shape := nodes[i]?.map Vnode.shape

variable {T : Nat → Option Shape} {i m : Nat} {node : Vnode} {nodes : List Vnode}
  {xs : List (List UInt8)}

lemma shapes_eq_some {s : Shape} :
    shapes nodes i = some s ↔ ∃ node, nodes[i]? = some node ∧ node.shape = s := Option.map_eq_some_iff

lemma shapes_of_node (h : nodes[i]? = some node) :
    shapes nodes i = some node.shape := shapes_eq_some.mpr ⟨node, h, rfl⟩

lemma Vnode.first_eq_some {c : Nat} :
    node.shape.first = some c ↔ ∃ pd, node.priv = some pd ∧ pd.first = c := Option.map_eq_some_iff

lemma Vnode.first_of_priv {pd : Priv} (h : node.priv = some pd) :
    node.shape.first = some pd.first := first_eq_some.mpr ⟨pd, h, rfl⟩

lemma shapes_setSize (nodes : List Vnode) (i n : Nat) : shapes (setSize nodes i n) = shapes nodes := by
  funext j
  rw [shapes, shapes, setSize, getElem?_modify]
  cases nodes[j]? with
  | none => rfl
  | some node =>
    show some (Vnode.shape (if i = j then _ else node)) = some node.shape
    split
    · rw [Vnode.shape, Vnode.shape, Option.map_map]
      rfl
    · rfl

variable {s : Shape} {x : List UInt8}

lemma shapes_append {x : Vnode} (h : shapes nodes i = some s) : shapes (nodes ++ [x]) i = some s := by
  obtain ⟨node, hn, rfl⟩ := shapes_eq_some.mp h
  apply shapes_of_node
  rw [getElem?_append_left (List.getElem?_eq_some_iff.mp hn).1, hn]

lemma shapes_append_inv {x : Vnode} (h : shapes (nodes ++ [x]) i = some s) :
    shapes nodes i = some s ∨ (i = nodes.length ∧ s = x.shape) := by
  rw [shapes] at h ⊢
  rcases lt_trichotomy i nodes.length with hlt | heq | hgt
  · rw [getElem?_append_left hlt] at h
    exact .inl h
  · subst heq
    rw [getElem?_concat_length] at h
    exact .inr ⟨rfl, (Option.some.inj h).symm⟩
  · rw [getElem?_eq_none (by rw [length_append, length_singleton]; omega)] at h
    cases h

/-! ## Paths -/

/-- A name that is a component of a path. -/
structure IsComponent (x : List UInt8) : Prop where
  ne : x ≠ []
  slash : 47 ∉ x
  nul : 0 ∉ x

/-- The pieces between separators hold no separator. -/
lemma mem_splitOnP {α : Type} {p : α → Bool} {xs l : List α} (h : l ∈ xs.splitOnP p) :
    ∀ c ∈ l, c ∈ xs ∧ p c = false := by
  induction xs generalizing l with
  | nil =>
    rw [splitOnP_nil, mem_singleton] at h
    subst h
    exact forall_mem_nil _
  | cons x xs ih =>
    rw [splitOnP_cons_eq_if_modifyHead] at h
    split_ifs at h with hx
    · rcases mem_cons.mp h with rfl | h
      · exact forall_mem_nil _
      · exact fun c hc => ⟨mem_cons_of_mem x (ih h c hc).1, (ih h c hc).2⟩
    cases hs : xs.splitOnP p with
    | nil => exact absurd hs (splitOnP_ne_nil p xs)
    | cons y ys =>
      rw [hs] at h ih
      intro c hc
      rcases mem_cons.mp h with rfl | h
      · rcases mem_cons.mp hc with rfl | hc
        · exact ⟨mem_cons_self, by simpa using hx⟩
        · have hih := ih mem_cons_self c hc
          exact ⟨mem_cons_of_mem x hih.1, hih.2⟩
      · have hih := ih (mem_cons_of_mem y h) c hc
        exact ⟨mem_cons_of_mem x hih.1, hih.2⟩

/-- The names on a path that is a C string. -/
lemma isComponent_of_mem {path : List UInt8} (h0 : 0 ∉ path) (hx : x ∈ components path) :
    IsComponent x := by
  rw [components, mem_filter] at hx
  have hmem := mem_splitOnP hx.1
  refine ⟨by simpa using hx.2, fun h => ?_, fun h => h0 (hmem 0 h).1⟩
  have hne := (hmem 47 h).2
  simp at hne

/-- `mnt` and `fat32`. -/
def mountNames : List (List UInt8) := [[109, 110, 116], [102, 97, 116, 51, 50]]

/-- The vnode `m` is the mount point. -/
structure IsMount (v : Vol) (T : Nat → Option Shape) (m : Nat) : Prop where
  node : ∃ s, T m = some s ∧ s.type = .dir ∧ s.first = some v.root
  path : ∃ a b s sa sb, T m = some s ∧ s.name = [102, 97, 116, 51, 50] ∧ s.parent = some a ∧
    T a = some sa ∧ sa.name = [109, 110, 116] ∧ sa.parent = some b ∧ T b = some sb ∧ sb.parent = none

/-- Vnode `i` is reached from the mount point under these names. -/
inductive Under (T : Nat → Option Shape) (m : Nat) : Nat → List (List UInt8) → Prop
  | mount : Under T m m []
  | child {p i : Nat} {xs : List (List UInt8)} {s : Shape} (h : Under T m p xs) (hi : T i = some s)
      (hp : s.parent = some p) (hname : IsComponent s.name) (hne : i ≠ m) : Under T m i (xs ++ [s.name])

lemma Under.mono {T' : Nat → Option Shape} (h : Under T m i xs)
    (hT : ∀ i s, T i = some s → T' i = some s) : Under T' m i xs := by
  induction h with
  | mount => exact .mount
  | child _ hi hp hname hne ih => exact .child ih (hT _ _ hi) hp hname hne

lemma Under.components (h : Under T m i xs) : ∀ x ∈ xs, IsComponent x := by
  induction h with
  | mount => exact forall_mem_nil _
  | child _ _ _ hname _ ih =>
    intro x hx
    rcases mem_append.mp hx with hx | hx
    · exact ih x hx
    · rw [mem_singleton.mp hx]
      exact hname

section
variable {v : Vol}

lemma pathNames_of_shape (h : shapes nodes i = some s) (n : Nat) : pathNames nodes n i =
      match s.parent, n with
      | none, _ => some []
      | some _, 0 => none
      | some p, n + 1 => (pathNames nodes n p).map (· ++ [s.name]) := by
  obtain ⟨node, hn, rfl⟩ := shapes_eq_some.mp h
  rw [pathNames.eq_def]
  cases n with
  | zero => cases hp : node.parent <;> simp [hn, hp, Vnode.shape]
  | succ n => cases hp : node.parent <;> simp [hn, hp, Vnode.shape]

section
variable (hm : IsMount v (shapes nodes) m)
include hm

lemma pathNames_mount (n : Nat) : pathNames nodes (n + 2) m = some mountNames := by
  obtain ⟨a, b, s, sa, sb, hs, hname, hp, hsa, hna, hpa, hsb, hpb⟩ := hm.path
  rw [pathNames_of_shape hs, hp]
  dsimp only
  rw [pathNames_of_shape hsa, hpa]
  dsimp only
  rw [pathNames_of_shape hsb, hpb, hname, hna]
  rfl

variable (h : Under (shapes nodes) m i xs)
include h

/-- A path that is not too deep is that of the names. -/
lemma pathNames_under : ∀ n, pathNames nodes (n + xs.length + 2) i = some (mountNames ++ xs) := by
  induction h with
  | mount => exact fun n => pathNames_mount hm n
  | @child p i xs s h hi hp _ _ ih =>
    intro n
    rw [pathNames_of_shape hi, hp, length_append, length_singleton]
    show (pathNames nodes (n + xs.length + 2) p).map _ = _
    rw [ih n]
    simp

/-- Depth decides whether there is a path at all. -/
lemma pathNames_eq {n : Nat}
    {names : List (List UInt8)} (hn : pathNames nodes n i = some names) : names = mountNames ++ xs := by
  induction h generalizing n names with
  | mount =>
    obtain ⟨a, b, s, sa, sb, hs, hname, hp, hsa, hna, hpa, hsb, hpb⟩ := hm.path
    rw [pathNames_of_shape hs, hp] at hn
    cases n with
    | zero => cases hn
    | succ n =>
      dsimp only at hn
      rw [pathNames_of_shape hsa, hpa] at hn
      cases n with
      | zero => cases hn
      | succ n =>
        dsimp only at hn
        rw [pathNames_of_shape hsb, hpb, hname, hna] at hn
        cases hn
        rfl
  | @child p i xs s h hi hp _ _ ih =>
    rw [pathNames_of_shape hi, hp] at hn
    cases n with
    | zero => cases hn
    | succ n =>
      dsimp only at hn
      cases hpn : pathNames nodes n p with
      | none =>
        rw [hpn] at hn
        cases hn
      | some names' =>
        rw [hpn] at hn
        cases hn
        rw [ih hpn]
        exact append_assoc ..

end

/-- The path of names below the mount point, without a leading slash. -/
def joined : List (List UInt8) → List UInt8
  | [] => []
  | x :: xs => x ++ xs.flatMap (47 :: ·)

lemma dropWhile_slash {rest : List UInt8} (hx : IsComponent x) :
    (x ++ rest).dropWhile (· = 47) = x ++ rest := by
  cases x with
  | nil => exact absurd rfl hx.ne
  | cons c cs =>
    have hc : c ≠ 47 := fun h => hx.slash (h ▸ mem_cons_self)
    rw [cons_append, dropWhile_cons_of_neg (by simpa using hc)]

lemma fat32RelPath_mount (hx : IsComponent x) (xs : List (List UInt8)) :
    fat32RelPath (mountPath ++ (x :: xs).flatMap (47 :: ·)) =
      if (joined (x :: xs)).length ≤ 127 then some (joined (x :: xs)) else none := by
  have hpre : mountPath.isPrefixOf (mountPath ++ (x :: xs).flatMap (47 :: ·)) = true :=
    isPrefixOf_iff_prefix.mpr (prefix_append _ _)
  have hrest : ((mountPath ++ (x :: xs).flatMap (47 :: ·)).drop mountPath.length).dropWhile (· = 47) =
      joined (x :: xs) := by
    exact dropWhile_slash hx
  rw [fat32RelPath, if_pos hpre]
  simp only [hrest]

/-- The path under which an entry is rewritten is that of its names. -/
lemma entryPath_eq (hm : IsMount v (shapes nodes) m) (h : Under (shapes nodes) m i (x :: xs))
    {rel : List UInt8} (hrel : entryPath nodes i = some rel) :
    rel = joined (x :: xs) := by
  have hx := h.components x mem_cons_self
  rw [entryPath, fat32BuildVnodePath] at hrel
  cases hn : pathNames nodes 16 i with
  | none =>
    rw [hn] at hrel
    cases hrel
  | some names =>
    obtain rfl := pathNames_eq hm h hn
    rw [hn] at hrel
    dsimp only at hrel
    split at hrel
    · rw [flatMap_append, Option.bind_some] at hrel
      have hmount : mountNames.flatMap (47 :: ·) = mountPath := rfl
      rw [hmount, fat32RelPath_mount hx] at hrel
      split at hrel
      · exact (Option.some.inj hrel).symm
      · cases hrel
    · cases hrel

/-- A file of the volume root is rewritten under its name. -/
lemma entryPath_root (hm : IsMount v (shapes nodes) m) (h : Under (shapes nodes) m i [x])
    (hlen : x.length ≤ 12) : entryPath nodes i = some x := by
  have hx := h.components x mem_cons_self
  have hn : pathNames nodes 16 i = some (mountNames ++ [x]) := pathNames_under hm h 13
  have hmount : mountNames.flatMap (47 :: ·) = mountPath := rfl
  have hlength : (mountPath ++ [x].flatMap (47 :: ·)).length ≤ 255 := by
    have h10 : mountPath.length = 10 := rfl
    simp only [flatMap_cons, flatMap_nil, append_nil, length_append, length_cons, h10]
    omega
  have hjoin : joined [x] = x := by rw [joined, flatMap_nil, append_nil]
  rw [entryPath, fat32BuildVnodePath, hn]
  dsimp only
  rw [flatMap_append, hmount, if_pos hlength, Option.bind_some, fat32RelPath_mount hx, hjoin,
    if_pos (by omega)]

lemma splitLast_component (hx : IsComponent x) : splitLast x = (none, x) := by
  have hdrop : x.dropWhile (· = 47) = x := by
    have h : (x ++ []).dropWhile (· = 47) = x ++ [] := dropWhile_slash hx
    rwa [append_nil] at h
  have htake : x.reverse.takeWhile (· ≠ 47) = x.reverse := by
    refine takeWhile_eq_self_iff.mpr fun c hc => ?_
    simpa using fun heq : c = 47 => hx.slash (heq ▸ mem_reverse.mp hc)
  rw [splitLast, hdrop, htake, reverse_reverse, if_neg hx.slash]

/-- A path of several names has a directory part. -/
lemma splitLast_joined {y : List UInt8} {ys : List (List UInt8)} (hx : IsComponent x) :
    (splitLast (joined (x :: y :: ys))).1 ≠ none := by
  rw [splitLast, joined, dropWhile_slash hx, if_pos (by simp)]
  exact Option.some_ne_none _

end
end FermiOs.Fat32
