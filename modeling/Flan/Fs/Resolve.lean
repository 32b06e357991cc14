import Flan.Fs.Reach

/-! What path resolution depends on: the node it starts from, and the nodes it
passes. -/
namespace Flan.Fs
open Flan.Lib Flan.Memory

/-! ### Segments of relative paths -/

/-- A string that is not empty and does not begin with a slash. -/
structure Relative (path : List Byte) : Prop where
  ne_nil : path ≠ []
  head : path.head? ≠ some slash
  str : 0 ∉ path

/-- A path without a slash at its end. -/
def trimEnd (path : List Byte) : List Byte :=
  if path.getLast? = some slash then path.dropLast else path

section Segments
variable {p q : List Byte}

theorem Relative.skipSlashes (hp : Relative p) : skipSlashes p = some p := by
  cases p with
  | nil => exact absurd rfl hp.ne_nil
  | cons c p =>
      have hc : c ≠ slash := fun h => hp.head (by rw [h]; rfl)
      rw [Fs.skipSlashes, if_neg hc]

theorem Relative.segments (hp : Relative p) : segments p = some ((trimEnd p).splitOn slash) := by
  rw [Fs.segments, newPath, hp.skipSlashes]
  rfl

theorem Relative.join (hp : Relative p) (hq : Relative q) : Relative (p ++ [slash] ++ q) := by
  constructor
  · simp
  · cases p with
    | nil => exact absurd rfl hp.ne_nil
    | cons c p => exact hp.head
  · simp only [List.mem_append, List.mem_singleton, not_or]
    exact ⟨⟨hp.str, by decide⟩, hq.str⟩

theorem trimEnd_join (hq : Relative q) : trimEnd (p ++ [slash] ++ q) = p ++ slash :: trimEnd q := by
  have hlast : (p ++ [slash] ++ q).getLast? = q.getLast? := by
    rw [List.getLast?_append_of_ne_nil _ hq.ne_nil]
  rw [trimEnd, trimEnd, hlast]
  split
  · rw [List.dropLast_append_of_ne_nil hq.ne_nil]
    simp
  · simp

theorem segments_join (hp : Relative p) (hq : Relative q) :
    segments (p ++ [slash] ++ q) = some (p.splitOn slash ++ (trimEnd q).splitOn slash) := by
  rw [(hp.join hq).segments, trimEnd_join hq, List.splitOn_append_cons_self]

theorem splitOn_trailing (h : p.getLast? = some slash) :
    p.splitOn slash = (trimEnd p).splitOn slash ++ [[]] := by
  obtain ⟨a, rfl⟩ := List.getLast?_eq_some_iff.mp h
  rw [trimEnd, if_pos h, List.dropLast_concat, List.splitOn_append_cons_self, List.splitOn_nil]

end Segments

/-! ### Walks -/

section Walks
variable {v : Vfs} {n s m : Nat} {p q : List Byte}

theorem Reduced.reduceNode (h : Reduced v n) : reduceNode v n = some n := by
  simp only [Fs.reduceNode, reduceFrom, h.mountpoint, h.link]

/-- The node a walk finds does not depend on `parent_node`. -/
theorem walkSegs_result (v : Vfs) (cs : List (List Byte)) (par par' cur : Nat) :
    (walkSegs v cs par cur).map PathToNode.result = (walkSegs v cs par' cur).map PathToNode.result := by
  induction cs generalizing par par' cur with
  | nil => rfl
  | cons c cs ih =>
      rw [walkSegs, walkSegs]
      cases (v.node cur).children with
      | none => rfl
      | some m =>
          simp only
          cases hashmapGet m c with
          | none =>
              simp only [Option.map_some]
              split <;> rfl
          | some n => exact ih _ _ n

theorem getNode_eq (hm : reduceNode v s = some m) (hp : Relative p) {cs : List (List Byte)}
    (hcs : segments p = some cs) : getNode v (some s) p = (walkSegs v cs m m).map PathToNode.result := by
  have hstart : startNodes v (some s) p = some (m, m) := by
    simp only [startNodes, if_neg hp.head]
    show ((reduceNode v s).bind fun a => some (a, a)) = _
    rw [hm]
    rfl
  rw [getNode, pathToNode_eq v (some s) hp.str hp.ne_nil, hstart, hcs]
  rfl

/-- A node that stands for a directory: one itself, a link to one or one that is
mounted on. -/
def DenotesDir (v : Vfs) (n : Nat) : Prop := ∃ m, reduceNode v n = some m ∧ (v.node m).children.isSome

theorem relative_dot : Relative dot := ⟨by decide, by decide, by decide⟩

theorem segments_dot : segments dot = some [dot] := by decide

/-- What "." finds in a directory. -/
theorem walkSegs_dot (hi : TreeInv none v) (hn : n < v.count) (hr : v.root ≠ some n)
    (hc : (v.node n).children.isSome) (par : Nat) :
    ∃ d, (walkSegs v [dot] par n).map PathToNode.result = some (some d) ∧ (v.node d).link = some n := by
  obtain ⟨c, hc⟩ := Option.isSome_iff_exists.mp hc
  obtain ⟨d, hd, hlink⟩ := hi.self hn hr (by simp) hc
  refine ⟨d, ?_, hlink⟩
  simp only [walkSegs, hc, hd]
  rfl

theorem walkSegs_found {cs : List (List Byte)} {par cur : Nat}
    (h : (walkSegs v cs par cur).map PathToNode.result = some (some n)) :
    ∃ par', walkSegs v cs par cur = some ⟨some par', some n⟩ := by
  induction cs generalizing par cur with
  | nil =>
      cases h
      exact ⟨par, rfl⟩
  | cons c cs ih =>
      rw [walkSegs] at h ⊢
      cases hm : (v.node cur).children with
      | none =>
          rw [hm] at h
          cases h
      | some m =>
          rw [hm] at h
          simp only at h ⊢
          cases hg : hashmapGet m c with
          | none =>
              rw [hg] at h
              simp only [Option.map_some] at h
              split at h <;> cases h
          | some x =>
              rw [hg] at h
              exact ih h

/-- A walk that goes on behind the node it has found. -/
theorem walkSegs_join {a : List (List Byte)} {par cur : Nat}
    (h : (walkSegs v a par cur).map PathToNode.result = some (some n)) (b : List (List Byte)) :
    (walkSegs v (a ++ b) par cur).map PathToNode.result =
      (walkSegs v b n n).map PathToNode.result := by
  obtain ⟨par', hfound⟩ := walkSegs_found h
  rw [walkSegs_append, hfound, Option.bind_some]
  exact walkSegs_result v b par' n n

/-- Behind an empty segment there is nothing. -/
theorem walkSegs_empty (hi : TreeInv none v) (hn : n < v.count) (c : List Byte) (par : Nat) :
    (walkSegs v [[], c] par n).map PathToNode.result = none ∨
      (walkSegs v [[], c] par n).map PathToNode.result = some none := by
  rw [walkSegs]
  cases hm : (v.node n).children with
  | none => exact .inl rfl
  | some m =>
      cases hg : hashmapGet m [] with
      | none =>
          right
          simp only [hg]
          rfl
      | some x => exact absurd rfl (hi.child hn hm hg).2.2

end Walks

/-- Resolution composes at a node exactly when the node is a plain directory and
the path to it has no slash at its end. -/
theorem paths_compose_iff {v : Vfs} (hv : VfsReaches v) {s n : Nat} (hs : s < v.count) {p : List Byte}
    (hp : Relative p) (hn : getNode v (some s) p = some (some n)) (hd : DenotesDir v n) :
    (∀ q, Relative q → getNode v (some n) q = getNode v (some s) (p ++ [slash] ++ q)) ↔
      (v.node n).children.isSome ∧ (v.node n).mountpoint = none ∧ p.getLast? ≠ some slash := by
  have hi := hv.inv
  obtain ⟨a, ha, -⟩ := hi.reduces hs
  obtain ⟨m, hm, hmc⟩ := hd
  obtain ⟨r, hr, hrn⟩ := Option.map_eq_some_iff.mp hn
  obtain ⟨hnlt, hnr⟩ := (hi.resolve_ends (by rintro _ ⟨⟩; exact hs) hp.str hr).2 n hrn
  have hwalk := hn
  rw [getNode_eq ha hp hp.segments] at hwalk
  constructor
  · intro hall
    -- The entry "." tells a directory from the one it is reduced to.
    obtain ⟨m', hm', hred⟩ := hi.reduces hnlt
    rw [hm] at hm'
    cases hm'
    obtain ⟨d, hfind, hlink⟩ := walkSegs_dot hi hred.lt (hi.reduced_ne_root hred) hmc m
    have hdot := hall dot relative_dot
    rw [getNode_eq hm relative_dot segments_dot, hfind,
      getNode_eq ha (hp.join relative_dot) (segments_join hp relative_dot)] at hdot
    have hone : (trimEnd dot).splitOn slash = [dot] := by decide
    rw [hone] at hdot
    by_cases hlast : p.getLast? = some slash
    · rw [splitOn_trailing hlast, List.append_assoc, walkSegs_join hwalk] at hdot
      rcases walkSegs_empty hi hnlt dot n with h | h
      · rw [List.singleton_append, h] at hdot
        cases hdot
      · rw [List.singleton_append, h] at hdot
        cases hdot
    · have htrim : trimEnd p = p := if_neg hlast
      rw [htrim] at hwalk
      rw [walkSegs_join hwalk] at hdot
      have hnc : (v.node n).children.isSome := by
        cases hc : (v.node n).children with
        | none =>
            rw [walkSegs, hc] at hdot
            cases hdot
        | some c => rfl
      obtain ⟨d', hfind', hlink'⟩ := walkSegs_dot hi hnlt hnr hnc n
      rw [hfind'] at hdot
      cases hdot
      rw [hlink] at hlink'
      cases hlink'
      exact ⟨hnc, hred.mountpoint, hlast⟩
  · rintro ⟨hnc, hmp, hlast⟩ q hq
    have hred : Reduced v n := ⟨hnlt, hmp, hi.no_link hnlt hnc⟩
    have htrim : trimEnd p = p := if_neg hlast
    rw [htrim] at hwalk
    rw [getNode_eq hred.reduceNode hq hq.segments,
      getNode_eq ha (hp.join hq) (segments_join hp hq), walkSegs_join hwalk]


def pathA : List Byte := ofChars ['a']
def pathB : List Byte := ofChars ['b']

def initTree : Vfs := (vfsInit fun _ _ => 0).getD bareVfs

def treeA : Vfs := ((vfsCreate initTree (some 0) pathA sIfdir).getD (none, initTree)).2

/-- A tree with the directory "/a" and the file "/a/b". -/
def treeAB : Vfs := ((vfsCreate treeA (some 4) pathB sIfreg).getD (none, treeA)).2

theorem treeA_reached : VfsReaches treeA := by
  have hinit : VfsReaches initTree := .init (show vfsInit (fun _ _ => 0) = some initTree from rfl)
  exact hinit.create (by rintro _ ⟨⟩; decide) (by decide)
    (show vfsCreate initTree (some 0) pathA sIfdir = some (some 4, treeA) from rfl)

theorem treeAB_reached : VfsReaches treeAB :=
  treeA_reached.create (by rintro _ ⟨⟩; decide) (by decide)
    (show vfsCreate treeA (some 4) pathB sIfreg = some (some 7, treeAB) from rfl)

theorem relative_pathA : Relative pathA := ⟨by decide, by decide, by decide⟩

/-- From "/a" on, every path is the one from the root with "a/" before it. -/
theorem plain_directory_composes : VfsReaches treeAB ∧ getNode treeAB (some 0) pathA = some (some 4) ∧
    ∀ q, Relative q → getNode treeAB (some 4) q = getNode treeAB (some 0) (pathA ++ [slash] ++ q) := by
  refine ⟨treeAB_reached, by decide, ?_⟩
  exact (paths_compose_iff treeAB_reached (by decide) relative_pathA (by decide)
    ⟨4, by decide, by decide⟩).mpr ⟨by decide, by decide, by decide⟩

/-- The link "." leads on when a walk starts there, and not when it passes it. -/
theorem dot_link_does_not_compose :
    VfsReaches treeAB ∧ getNode treeAB (some 0) dot = some (some 2) ∧ DenotesDir treeAB 2 ∧
      getNode treeAB (some 2) pathA = some (some 4) ∧
      getNode treeAB (some 0) (dot ++ [slash] ++ pathA) = none :=
  ⟨treeAB_reached, by decide, ⟨1, by decide, by decide⟩, by decide, by decide⟩

/-! ### Absolute paths -/

/-- The path has a second segment, or its only one names a directory of the
root. -/
def Anchored (v : Vfs) (path : List Byte) : Prop :=
  ∃ c cs, segments path = some (c :: cs) ∧ (cs ≠ [] ∨ ∃ t m n, v.root.bind (reduceNode v) = some t ∧
    (v.node t).children = some m ∧ hashmapGet m c = some n ∧ (v.node n).children.isSome)

section Absolute
variable {v : Vfs}

/-- Only a walk of one segment keeps the parent that it starts with. -/
theorem walkSegs_second (v : Vfs) (c d : List Byte) (cs : List (List Byte)) (par par' cur : Nat) :
    walkSegs v (c :: d :: cs) par cur = walkSegs v (c :: d :: cs) par' cur := by
  rw [walkSegs, walkSegs]
  cases (v.node cur).children with
  | none => rfl
  | some m =>
      simp only
      cases hashmapGet m c with
      | none => rfl
      | some n =>
          simp only
          cases hc : (v.node n).children with
          | none => rw [walkSegs, walkSegs, hc]
          | some k => rfl

theorem walkSegs_single {cur : Nat} {m : Hashmap Nat} (hm : (v.node cur).children = some m)
    (c : List Byte) (par : Nat) : walkSegs v [c] par cur =
      some ⟨some ((hashmapGet m c).elim par fun n => if (v.node n).children.isSome then n else par),
        hashmapGet m c⟩ := by
  simp only [walkSegs, hm]
  cases hashmapGet m c with
  | none => rfl
  | some n => rfl

theorem pathToNode_absolute (hi : TreeInv none v) {d : Nat} (hd : d < v.count) {path : List Byte}
    (hz : 0 ∉ path) (habs : path.head? = some slash) :
    ∃ s t, reduceNode v d = some s ∧ v.root.bind (reduceNode v) = some t ∧
      pathToNode v (some d) path = (match segments path with
        | none => some ⟨some s, some t⟩
        | some cs => walkSegs v cs s t) := by
  have hne : path ≠ [] := by
    rintro rfl
    cases habs
  obtain ⟨s, t, hstart, -, -, hs, ht⟩ := hi.starts (some d) (by rintro _ ⟨⟩; exact hd) path
  rw [if_pos habs] at ht
  refine ⟨s, t, hs, ht, ?_⟩
  rewrite [pathToNode_eq v (some d) hz hne, hstart]
  rfl

theorem vfsCreate_congr {parent parent' : Option Nat} {path : List Byte}
    (h : pathToNode v parent path = pathToNode v parent' path) (mode : Nat) :
    vfsCreate v parent path mode = vfsCreate v parent' path mode := by
  rw [vfsCreate, vfsCreate, h]

end Absolute

/-- The last component hides where a walk came from exactly if it is a directory. -/
theorem walkSegs_single_inj {v : Vfs} {t : Nat} {m : Hashmap Nat} {c : List Byte} (hm : (v.node t).children = some m)
    (s₁ s₂ : Nat) :
    walkSegs v [c] s₁ t = walkSegs v [c] s₂ t ↔
      s₁ = s₂ ∨ ∃ n, hashmapGet m c = some n ∧ (v.node n).children.isSome := by
  simp only [walkSegs_single hm, Option.some.injEq, PathToNode.mk.injEq, and_true]
  cases hg : hashmapGet m c with
  | none => simp
  | some n =>
      by_cases hc : (v.node n).children.isSome
      · simp [hc]
      · simp [hc]

/-- Two starting nodes give the same parent and result for an absolute path, and
hence the same new node, exactly when they are reduced to the same node or the
path is anchored. -/
theorem absolute_path_start_iff {v : Vfs} (hv : VfsReaches v) {d₁ d₂ : Nat} (h₁ : d₁ < v.count)
    (h₂ : d₂ < v.count) {path : List Byte} (hz : 0 ∉ path) (habs : path.head? = some slash) :
    (pathToNode v (some d₁) path = pathToNode v (some d₂) path ∧
      ∀ mode, vfsCreate v (some d₁) path mode = vfsCreate v (some d₂) path mode) ↔
    reduceNode v d₁ = reduceNode v d₂ ∨ Anchored v path := by
  have hi := hv.inv
  obtain ⟨s₁, t, hs₁, ht, hp₁⟩ := pathToNode_absolute hi h₁ hz habs
  obtain ⟨s₂, t', hs₂, ht', hp₂⟩ := pathToNode_absolute hi h₂ hz habs
  rw [ht] at ht'
  cases ht'
  have hsame : pathToNode v (some d₁) path = pathToNode v (some d₂) path ↔
      reduceNode v d₁ = reduceNode v d₂ ∨ Anchored v path := by
    rw [hp₁, hp₂, hs₁, hs₂]
    constructor
    · intro heq
      cases hseg : segments path with
      | none =>
          rw [hseg] at heq
          cases heq
          exact .inl rfl
      | some cs =>
          rw [hseg] at heq
          cases cs with
          | nil =>
              cases heq
              exact .inl rfl
          | cons c cs =>
              cases cs with
              | cons d cs => exact .inr ⟨c, d :: cs, hseg, .inl (List.cons_ne_nil _ _)⟩
              | nil =>
                  obtain ⟨t', ht', _, htc⟩ := hi.reduces_root
                  rw [ht] at ht'
                  cases ht'
                  obtain ⟨m, hm⟩ := Option.isSome_iff_exists.mp htc
                  rcases (walkSegs_single_inj hm s₁ s₂).mp heq with heq | ⟨n, hg, hc⟩
                  · exact .inl (congrArg some heq)
                  · exact .inr ⟨c, [], hseg, .inr ⟨t, m, n, ht, hm, hg, hc⟩⟩
    · rintro (heq | ⟨c, cs, hseg, hcs⟩)
      · cases heq
        rfl
      · rw [hseg]
        cases cs with
        | cons d cs => exact walkSegs_second v c d cs s₁ s₂ t
        | nil =>
            rcases hcs with h | ⟨t', m, n, ht', hm, hg, hc⟩
            · exact absurd rfl h
            · rw [ht] at ht'
              cases ht'
              exact (walkSegs_single_inj hm s₁ s₂).mpr (.inr ⟨n, hg, hc⟩)
  constructor
  · rintro ⟨heq, -⟩
    exact hsame.mp heq
  · intro h
    have heq := hsame.mpr h
    exact ⟨heq, vfsCreate_congr heq⟩

/-- Below "/a" an absolute path means the same from the root and from "/a". -/
theorem deep_path_same_start : VfsReaches treeAB ∧ reduceNode treeAB 0 ≠ reduceNode treeAB 4 ∧
    pathToNode treeAB (some 0) (slash :: pathA ++ slash :: dot) =
      pathToNode treeAB (some 4) (slash :: pathA ++ slash :: dot) := by
  refine ⟨treeAB_reached, by decide, ?_⟩
  have hiff := @absolute_path_start_iff treeAB treeAB_reached 0 4 (by decide) (by decide)
    (slash :: pathA ++ slash :: dot) (by decide) (by decide)
  exact (hiff.mpr (.inr ⟨pathA, [dot], by decide, .inl (by decide)⟩)).1

/-- A file "/b" made from the directory "/a" becomes "/a/b". -/
theorem absolute_create_lands_in_start :
    VfsReaches treeA ∧
      pathToNode treeA (some 0) (slash :: pathB) = some ⟨some 1, none⟩ ∧
      pathToNode treeA (some 4) (slash :: pathB) = some ⟨some 4, none⟩ ∧
      ∃ v, vfsCreate treeA (some 4) (slash :: pathB) sIfreg = some (some 7, v) ∧
        getNode v (some 0) (slash :: pathB) = some none ∧
        getNode v (some 0) (slash :: pathA ++ slash :: pathB) = some (some 7) :=
  ⟨treeA_reached, by decide, by decide, _, rfl, by decide +kernel, by decide +kernel⟩

end Flan.Fs
