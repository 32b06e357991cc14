import Flan.Fs.Resolve

/-! Where `path_to_node` of `fs/vfs.c` looks up names, and where `reduce_node` ends. The loop
of `path_to_node` calls `hashmap_get` on the `children` of whatever the last component named;
regular files and the links "." and ".." have none. -/
namespace Flan.Fs
open Flan.Lib

/-- The nodes in whose `children` a walk looks up its segments, up to the first that has
none. -/
def lookups (v : Vfs) : List (List Byte) → (current : Nat) → List Nat
  | [], _ => []
  | c :: cs, current =>
      current :: match (v.node current).children.bind fun m => hashmapGet m c with
        | some n => lookups v cs n
        | none => []

/-- The lookups of `path_to_node`. -/
def pathLookups (v : Vfs) (parent : Option Nat) (path : List Byte) : List Nat :=
  match startNodes v parent path, segments path with
  | some start, some cs => lookups v cs start.2
  | _, _ => []

/-- A component of the path that is not the last one names the node. -/
def NamedBefore (v : Vfs) (parent : Option Nat) (path : List Byte) (x : Nat) : Prop :=
  ∃ start pre post p, startNodes v parent path = some start ∧ segments path = some (pre ++ post) ∧
    pre ≠ [] ∧ post ≠ [] ∧ walkSegs v pre start.1 start.2 = some ⟨some p, some x⟩

/-- No lookup follows a null pointer, and behind what is not a directory nothing is found. -/
structure WalkSafe (v : Vfs) (parent : Option Nat) (path : List Byte) : Prop where
  lookups : ∀ x ∈ pathLookups v parent path, (v.node x).children.isSome
  nothing : ∀ x, NamedBefore v parent path x → (v.node x).children = none →
    ∃ r, pathToNode v parent path = some r ∧ r.result = none

/-- The walk starts at a directory, and each segment but the last names one or nothing. -/
def Walkable (v : Vfs) : List (List Byte) → (current : Nat) → Prop
  | [], _ => True
  | c :: cs, current => ∃ m, (v.node current).children = some m ∧ ∀ n, hashmapGet m c = some n → Walkable v cs n

/-- The same for the segments of a path and the node it starts at. -/
def PathWalkable (v : Vfs) (parent : Option Nat) (path : List Byte) : Prop :=
  ∀ start cs, startNodes v parent path = some start → segments path = some cs → Walkable v cs start.2

/-- The segments lead through directories to one that lacks its segment, before the last. -/
def Missing (v : Vfs) : List (List Byte) → (current : Nat) → Prop
  | [], _ => False
  | c :: cs, current => ∃ m, (v.node current).children = some m ∧
      ((hashmapGet m c = none ∧ cs ≠ []) ∨ ∃ n, hashmapGet m c = some n ∧ Missing v cs n)

def PathMissing (v : Vfs) (parent : Option Nat) (path : List Byte) : Prop :=
  ∃ start cs, startNodes v parent path = some start ∧ segments path = some cs ∧ Missing v cs start.2

section Walk
variable {v : Vfs} {cs pre post : List (List Byte)} {cur par p x : Nat} {parent : Option Nat} {path : List Byte}

theorem walkable_iff_lookups : Walkable v cs cur ↔ ∀ x ∈ lookups v cs cur, (v.node x).children.isSome := by
  induction cs generalizing cur with
  | nil => simp [Walkable, lookups]
  | cons c cs ih =>
      unfold Walkable lookups
      cases hm : (v.node cur).children with
      | none => simp [hm]
      | some m =>
          cases hg : hashmapGet m c with
          | none => simp [hm, hg]
          | some n => simp [hm, hg, ih]

/-- A walk that faults has made a lookup without a map. -/
theorem walkSegs_isSome_iff : (walkSegs v cs par cur).isSome ↔ Walkable v cs cur := by
  induction cs generalizing par cur with
  | nil => exact iff_of_true rfl trivial
  | cons c cs ih =>
      unfold Walkable walkSegs
      cases (v.node cur).children with
      | none => simp
      | some m =>
          cases hg : hashmapGet m c with
          | none => simp [hg]
          | some n => simp [hg, ih]

theorem walkSegs_eq_missing_iff : walkSegs v cs par cur = some ⟨none, none⟩ ↔ Missing v cs cur := by
  induction cs generalizing par cur with
  | nil => simp [walkSegs, Missing]
  | cons c cs ih =>
      unfold Missing walkSegs
      cases (v.node cur).children with
      | none => simp
      | some m =>
          cases hg : hashmapGet m c with
          | none => by_cases hcs : cs = [] <;> simp [hg, hcs]
          | some n => simp [hg, ih]

/-- On a walkable path every node that is named before the last segment is a directory. -/
theorem Walkable.named (h : Walkable v (pre ++ post) cur) (hpost : post ≠ [])
    (hw : walkSegs v pre par cur = some ⟨some p, some x⟩) : (v.node x).children.isSome := by
  induction pre generalizing par cur with
  | nil =>
      cases hw
      cases post with
      | nil => exact absurd rfl hpost
      | cons c post =>
          obtain ⟨m, hm, -⟩ := h
          exact Option.isSome_of_mem hm
  | cons c pre ih =>
      obtain ⟨m, hm, hnext⟩ := h
      rw [walkSegs, hm] at hw
      dsimp only at hw
      cases hg : hashmapGet m c with
      | none =>
          rw [hg] at hw
          dsimp only at hw
          split at hw <;> cases hw
      | some n =>
          rw [hg] at hw
          exact ih (hnext n hg) hw

theorem pathWalkable_iff_lookups :
    PathWalkable v parent path ↔ ∀ x ∈ pathLookups v parent path, (v.node x).children.isSome := by
  unfold PathWalkable pathLookups
  cases startNodes v parent path with
  | none => simp
  | some start =>
      cases segments path with
      | none => simp
      | some cs => simp [walkable_iff_lookups]

/-- In a tree of the kernel `path_to_node` returns exactly for the walkable paths. -/
theorem TreeInv.returns_iff {bare : Option Nat} (hi : TreeInv bare v) (hp : ∀ d, parent = some d → d < v.count)
    (hz : 0 ∉ path) : (pathToNode v parent path).isSome ↔ PathWalkable v parent path := by
  unfold PathWalkable
  by_cases hne : path = []
  · rw [pathToNode, if_pos hne]
    refine iff_of_true rfl fun start cs _ hseg => ?_
    rw [hne] at hseg
    cases hseg
  · obtain ⟨s, t, hstart, -⟩ := hi.starts parent hp path
    rw [pathToNode_eq v parent hz hne, hstart, Option.bind_some]
    cases segments path with
    | none => simp
    | some cs => simp [walkSegs_isSome_iff]

theorem TreeInv.missing_iff {bare : Option Nat} (hi : TreeInv bare v) (hp : ∀ d, parent = some d → d < v.count)
    (hz : 0 ∉ path) (hne : path ≠ []) :
    pathToNode v parent path = some ⟨none, none⟩ ↔ PathMissing v parent path := by
  obtain ⟨s, t, hstart, -⟩ := hi.starts parent hp path
  unfold PathMissing
  rw [pathToNode_eq v parent hz hne, hstart, Option.bind_some]
  cases segments path with
  | none => simp
  | some cs => simp [walkSegs_eq_missing_iff]

/-- A path is walked safely exactly if the walk starts at a directory, when there is a
segment at all, and every segment but the last names a directory or nothing. Any other path
is looked up through a null pointer. -/
theorem path_walk_safe_iff (hv : VfsReaches v) (hp : ∀ d, parent = some d → d < v.count) (hz : 0 ∉ path) :
    (WalkSafe v parent path ↔ PathWalkable v parent path) ∧
      ((pathToNode v parent path).isSome ↔ PathWalkable v parent path) := by
  refine ⟨⟨fun h => pathWalkable_iff_lookups.mpr h.lookups, fun h => ⟨pathWalkable_iff_lookups.mp h, ?_⟩⟩,
    hv.inv.returns_iff hp hz⟩
  rintro x ⟨start, pre, post, p, hstart, hseg, -, hpost, hwalk⟩ hnone
  have hdir := (h start _ hstart hseg).named hpost hwalk
  rw [hnone] at hdir
  cases hdir

/-- In every tree of the kernel the chain of mounts and links from a node ends, and
`reduce_node` returns its end. -/
theorem reduce_node_terminates (hv : VfsReaches v) {n : Nat} (hn : n < v.count) :
    ∃ m, Relation.ReflTransGen (Follows v) n m ∧ (v.node m).mountpoint = none ∧ (v.node m).link = none ∧
      ∀ fuel, v.count < fuel → reduceFrom v fuel n = some m := by
  obtain ⟨m, hchain, hred, -, hrun⟩ := hv.inv.reduces_from hn
  refine ⟨m, hchain, hred.mountpoint, hred.link, fun fuel hf => hrun fuel ?_⟩
  exact lt_of_lt_of_le (rank_lt hn) hf

end Walk

/-- From the ".." of what is mounted on the root, through the root and back. -/
theorem dotdot_terminates : ∃ m, Relation.ReflTransGen (Follows treeAB) 3 m ∧ (treeAB.node m).mountpoint = none ∧
    (treeAB.node m).link = none ∧ ∀ fuel, treeAB.count < fuel → reduceFrom treeAB fuel 3 = some m :=
  reduce_node_terminates treeAB_reached (by decide)

/-- The file in "/a" is found by way of a directory. -/
theorem file_in_directory_walk_safe : WalkSafe treeAB (some 0) (pathA ++ slash :: pathB) := by
  refine (path_walk_safe_iff treeAB_reached (by decide) (by decide)).1.mpr ?_
  rw [pathWalkable_iff_lookups]
  decide +kernel

/-- A name behind that file is looked up in its `children`, which are null. -/
theorem name_behind_file_not_safe :
    VfsReaches treeAB ∧ pathLookups treeAB (some 0) (pathA ++ slash :: pathB ++ slash :: pathA) = [1, 4, 7] ∧
    (treeAB.node 7).children = none ∧
    pathToNode treeAB (some 0) (pathA ++ slash :: pathB ++ slash :: pathA) = none ∧
    ¬ WalkSafe treeAB (some 0) (pathA ++ slash :: pathB ++ slash :: pathA) := by
  have hlook : pathLookups treeAB (some 0) (pathA ++ slash :: pathB ++ slash :: pathA) = [1, 4, 7] := by
    decide +kernel
  have hnull : (treeAB.node 7).children = none := by rfl
  refine ⟨treeAB_reached, hlook, hnull, by decide +kernel, fun h => ?_⟩
  have hsome := h.lookups 7 (by rw [hlook]; decide)
  rw [hnull] at hsome
  cases hsome

end Flan.Fs
