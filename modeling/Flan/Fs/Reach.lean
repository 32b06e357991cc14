import Mathlib.Logic.Relation
import Flan.Fs.Tree

/-! Path resolution in a tree that keeps the invariant, and the trees that the
calls of `fs/vfs.c` reach. -/
namespace Flan.Fs
open Flan.Lib Flan.Memory

/-! ### Resolution -/

/-- A node that `reduce_node` leaves alone. -/
structure Reduced (v : Vfs) (n : Nat) : Prop where
  lt : n < v.count
  mountpoint : (v.node n).mountpoint = none
  link : (v.node n).link = none

/-- `reduce_node` goes on to what is mounted on a node, or else to the target of its link. -/
def Follows (v : Vfs) (n m : Nat) : Prop := (v.node n).mountpoint.or (v.node n).link = some m

/-- A bound on what is left of such a chain. -/
def rank (v : Vfs) (n : Nat) : Nat := if (v.node n).link.isSome then v.count else v.count - 1 - n

section Resolve
variable {v : Vfs} {bare : Option Nat} {n m : Nat} {par cur p x : Nat} {cs : List (List Byte)}

theorem reduceFrom_succ (v : Vfs) (fuel n : Nat) :
    reduceFrom v (fuel + 1) n = ((v.node n).mountpoint.or (v.node n).link).elim (some n) (reduceFrom v fuel) := by
  rw [reduceFrom]
  cases (v.node n).mountpoint with
  | some m => rfl
  | none =>
      cases (v.node n).link with
      | some l => rfl
      | none => rfl

theorem rank_lt (hn : n < v.count) : rank v n < v.count + 1 := by
  unfold rank
  split <;> omega

/-- Mounts lead to younger directories and links to nodes that are none. -/
theorem TreeInv.follows (hi : TreeInv bare v) (hn : n < v.count) (hf : Follows v n m) :
    m < v.count ∧ rank v m < rank v n ∧ ((v.node n).children.isSome → (v.node m).children.isSome) := by
  unfold rank
  rcases Option.or_eq_some_iff.mp hf with hm | ⟨-, hl⟩
  · obtain ⟨hlt, hmc, hnch, hmch⟩ := hi.mount hn hm
    rw [hi.no_link hn hnch, hi.no_link hmc hmch]
    refine ⟨hmc, ?_, fun _ => hmch⟩
    simp only [Option.isSome_none, Bool.false_eq_true, if_false]
    omega
  · obtain ⟨hlt, hch, hll⟩ := hi.link hn hl
    rw [hl, hll, hch]
    refine ⟨hlt, ?_, fun h => by cases h⟩
    simp only [Option.isSome_none, Option.isSome_some, Bool.false_eq_true, if_false, if_true]
    omega

/-- From every node the chain ends, and `reduce_node` returns its end. -/
theorem TreeInv.reduces_from (hi : TreeInv bare v) (hn : n < v.count) :
    ∃ m, Relation.ReflTransGen (Follows v) n m ∧ Reduced v m ∧
      ((v.node n).children.isSome → (v.node m).children.isSome) ∧
      ∀ fuel, rank v n < fuel → reduceFrom v fuel n = some m := by
  induction hr : rank v n using Nat.strong_induction_on generalizing n with
  | h r ih =>
      cases hf : (v.node n).mountpoint.or (v.node n).link with
      | none =>
          obtain ⟨hm, hl⟩ := Option.or_eq_none_iff.mp hf
          refine ⟨n, .refl, ⟨hn, hm, hl⟩, id, fun fuel hfuel => ?_⟩
          obtain ⟨fuel, rfl⟩ := Nat.exists_eq_succ_of_ne_zero (Nat.ne_zero_of_lt hfuel)
          rw [reduceFrom_succ, hf, Option.elim_none]
      | some k =>
          obtain ⟨hk, hlt, hkc⟩ := hi.follows hn hf
          obtain ⟨m, hchain, hred, hmc, hrun⟩ := ih (rank v k) (hr ▸ hlt) hk rfl
          refine ⟨m, .head hf hchain, hred, fun h => hmc (hkc h), fun fuel hfuel => ?_⟩
          obtain ⟨fuel, rfl⟩ := Nat.exists_eq_succ_of_ne_zero (Nat.ne_zero_of_lt hfuel)
          rw [reduceFrom_succ, hf, Option.elim_some]
          exact hrun fuel (by omega)

theorem TreeInv.reduces (hi : TreeInv bare v) (hn : n < v.count) :
    ∃ m, reduceNode v n = some m ∧ Reduced v m := by
  obtain ⟨m, -, hred, -, hrun⟩ := hi.reduces_from hn
  exact ⟨m, hrun _ (rank_lt hn), hred⟩

/-- The node that absolute paths start from. -/
theorem TreeInv.reduces_root (hi : TreeInv bare v) :
    ∃ m, v.root.bind (reduceNode v) = some m ∧ Reduced v m ∧ (v.node m).children.isSome := by
  obtain ⟨r, hr, hrlt, hrm⟩ := hi.root
  obtain ⟨k, hk⟩ := Option.isSome_iff_exists.mp hrm
  have hrc := (hi.mount hrlt hk).2.2.1
  obtain ⟨m, -, hred, hmc, hrun⟩ := hi.reduces_from hrlt
  refine ⟨m, ?_, hred, hmc hrc⟩
  rw [hr, Option.bind_some]
  exact hrun _ (rank_lt hrlt)

theorem TreeInv.reduced_ne_root (hi : TreeInv bare v) (hr : Reduced v n) : v.root ≠ some n := by
  obtain ⟨r, hroot, _, hm⟩ := hi.root
  intro he
  rw [hroot] at he
  cases he
  rw [hr.mountpoint] at hm
  cases hm

/-- The start of a walk. -/
theorem TreeInv.starts (hi : TreeInv bare v) (parent : Option Nat)
    (hp : ∀ d, parent = some d → d < v.count) (path : List Byte) :
    ∃ s t, startNodes v parent path = some (s, t) ∧ Reduced v s ∧ Reduced v t ∧
      (parent <|> v.root).bind (reduceNode v) = some s ∧
      (if path.head? = some slash then v.root.bind (reduceNode v) else some s) = some t := by
  obtain ⟨d, hd, hdlt⟩ : ∃ d, (parent <|> v.root) = some d ∧ d < v.count := by
    cases parent with
    | none =>
        obtain ⟨r, hr, hrlt, _⟩ := hi.root
        exact ⟨r, hr, hrlt⟩
    | some d => exact ⟨d, rfl, hp d rfl⟩
  obtain ⟨s, hs, hred⟩ := hi.reduces hdlt
  obtain ⟨t, ht, hredt, _⟩ := hi.reduces_root
  have hstart : (parent <|> v.root).bind (reduceNode v) = some s := by
    rw [hd, Option.bind_some, hs]
  by_cases hslash : path.head? = some slash
  · refine ⟨s, t, ?_, hred, hredt, hstart, by rw [if_pos hslash, ht]⟩
    obtain ⟨r, hr, hrt⟩ := Option.bind_eq_some_iff.mp ht
    rw [hr] at hd
    simp only [startNodes, hd, hs, if_pos hslash, hr, hrt, Option.bind_eq_bind, Option.bind_some]
    rfl
  · refine ⟨s, s, ?_, hred, hred, hstart, if_neg hslash⟩
    simp only [startNodes, hd, hs, if_neg hslash, Option.bind_eq_bind, Option.bind_some]
    rfl

theorem walkSegs_append (v : Vfs) (a b : List (List Byte)) (par cur : Nat) :
    walkSegs v (a ++ b) par cur = (walkSegs v a par cur).bind fun r =>
      match r with
      | ⟨some p, some x⟩ => walkSegs v b p x
      | r => some (if b = [] then r else ⟨none, none⟩) := by
  induction a generalizing par cur with
  | nil => rfl
  | cons c a ih =>
      rw [List.cons_append, walkSegs, walkSegs]
      cases (v.node cur).children with
      | none => rfl
      | some m =>
          simp only
          cases hashmapGet m c with
          | some n => exact ih _ _
          | none =>
              cases a with
              | nil =>
                  cases b with
                  | nil => rfl
                  | cons d b => rfl
              | cons d a =>
                  cases b with
                  | nil => rfl
                  | cons e b => rfl

/-- A walk that misses only its last segment. -/
theorem walkSegs_missing (h : walkSegs v cs par cur = some ⟨some p, none⟩) :
    ∃ pre c x m, cs = pre ++ [c] ∧ walkSegs v pre par cur = some ⟨some p, some x⟩ ∧
      (v.node x).children = some m ∧ hashmapGet m c = none := by
  induction cs generalizing par cur with
  | nil => cases h
  | cons c cs ih =>
      rw [walkSegs] at h
      cases hm : (v.node cur).children with
      | none =>
          rw [hm] at h
          cases h
      | some m =>
          rw [hm] at h
          simp only at h
          cases hg : hashmapGet m c with
          | none =>
              rw [hg] at h
              cases cs with
              | nil =>
                  cases h
                  exact ⟨[], c, cur, m, rfl, rfl, hm, hg⟩
              | cons d cs => cases h
          | some n =>
              rw [hg] at h
              obtain ⟨pre, e, x, mx, rfl, hwalk, hx, hge⟩ := ih h
              refine ⟨c :: pre, e, x, mx, rfl, ?_, hx, hge⟩
              rw [walkSegs, hm]
              simp only [hg]
              exact hwalk

/-- The last step of a walk that finds a node. -/
theorem walkSegs_last {pre : List (List Byte)} {c : List Byte} {q : Option Nat}
    (h : walkSegs v (pre ++ [c]) par cur = some ⟨q, some x⟩) :
    ∃ p y m, walkSegs v pre par cur = some ⟨some p, some y⟩ ∧ (v.node y).children = some m ∧
      hashmapGet m c = some x := by
  rw [walkSegs_append] at h
  cases hw : walkSegs v pre par cur with
  | none =>
      rw [hw] at h
      cases h
  | some r =>
      rw [hw, Option.bind_some] at h
      split at h
      · rename_i p y
        rw [walkSegs] at h
        cases hm : (v.node y).children with
        | none =>
            rw [hm] at h
            cases h
        | some m =>
            rw [hm] at h
            simp only at h
            cases hg : hashmapGet m c with
            | none =>
                rw [hg] at h
                cases h
            | some n =>
                rw [hg] at h
                cases h
                exact ⟨p, y, m, rfl, hm, hg⟩
      · cases h

/-- Where a walk can end. -/
theorem TreeInv.walk_ends (hi : TreeInv bare v) {r : PathToNode} (hcur : cur < v.count)
    (hroot : v.root ≠ some cur) (hpar : par < v.count ∧ (v.node par).link = none)
    (h : walkSegs v cs par cur = some r) :
    (∀ p, r.parent = some p → p < v.count ∧ (v.node p).link = none) ∧
    ∀ x, r.result = some x → x < v.count ∧ v.root ≠ some x := by
  induction cs generalizing par cur with
  | nil =>
      cases h
      constructor
      · rintro _ ⟨⟩
        exact hpar
      · rintro _ ⟨⟩
        exact ⟨hcur, hroot⟩
  | cons c cs ih =>
      rw [walkSegs] at h
      cases hm : (v.node cur).children with
      | none =>
          rw [hm] at h
          cases h
      | some m =>
          rw [hm] at h
          simp only at h
          cases hg : hashmapGet m c with
          | none =>
              rw [hg] at h
              cases cs with
              | nil =>
                  cases h
                  constructor
                  · rintro _ ⟨⟩
                    exact hpar
                  · rintro _ ⟨⟩
              | cons d cs =>
                  cases h
                  constructor
                  · rintro _ ⟨⟩
                  · rintro _ ⟨⟩
          | some n =>
              rw [hg] at h
              obtain ⟨hn, hnr, _⟩ := hi.child hcur hm hg
              refine ih hn hnr ?_ h
              split
              · rename_i hc
                exact ⟨hn, hi.no_link hn hc⟩
              · exact hpar

/-- The outcome of `path_to_node` in terms of a walk. -/
theorem TreeInv.resolves (hi : TreeInv bare v) {parent : Option Nat} {path : List Byte}
    {r : PathToNode} (hp : ∀ d, parent = some d → d < v.count) (hz : 0 ∉ path) (hne : path ≠ [])
    (h : pathToNode v parent path = some r) :
    ∃ s t, Reduced v s ∧ Reduced v t ∧
      ((segments path = none ∧ r = ⟨some s, some t⟩) ∨
        ∃ cs, segments path = some cs ∧ walkSegs v cs s t = some r) := by
  obtain ⟨s, t, hstart, hs, ht, _⟩ := hi.starts parent hp path
  rw [pathToNode_eq v parent hz hne, hstart, Option.bind_some] at h
  refine ⟨s, t, hs, ht, ?_⟩
  cases hseg : segments path with
  | none =>
      rw [hseg] at h
      cases h
      exact .inl ⟨rfl, rfl⟩
  | some cs =>
      rw [hseg] at h
      exact .inr ⟨cs, rfl, h⟩

theorem TreeInv.resolve_ends (hi : TreeInv bare v) {parent : Option Nat} {path : List Byte}
    {r : PathToNode} (hp : ∀ d, parent = some d → d < v.count) (hz : 0 ∉ path)
    (h : pathToNode v parent path = some r) :
    (∀ p, r.parent = some p → p < v.count ∧ (v.node p).link = none) ∧
    ∀ x, r.result = some x → x < v.count ∧ v.root ≠ some x := by
  by_cases hne : path = []
  · rw [pathToNode, if_pos hne] at h
    cases h
    constructor
    · rintro _ ⟨⟩
    · rintro _ ⟨⟩
  · obtain ⟨s, t, hs, ht, hcase⟩ := hi.resolves hp hz hne h
    have htr := hi.reduced_ne_root ht
    rcases hcase with ⟨_, rfl⟩ | ⟨cs, _, hwalk⟩
    · constructor
      · rintro _ ⟨⟩
        exact ⟨hs.lt, hs.link⟩
      · rintro _ ⟨⟩
        exact ⟨ht.lt, htr⟩
    · exact hi.walk_ends ht.lt htr ⟨hs.lt, hs.link⟩ hwalk

theorem segments_head {path : List Byte} {c : List Byte} {cs : List (List Byte)}
    (h : segments path = some (c :: cs)) : c ≠ [] := by
  obtain ⟨new, hnew, hsplit⟩ := Option.map_eq_some_iff.mp h
  obtain ⟨_, _, _, _, _, x, xs, rfl, hx⟩ := newPath_decomp hnew
  rw [List.splitOn_cons_eq_if_modifyHead, if_neg (by simpa using hx)] at hsplit
  cases hxs : xs.splitOn slash with
  | nil => exact absurd hxs (List.splitOn_ne_nil _ _)
  | cons d ds =>
      rw [hxs, List.modifyHead_cons] at hsplit
      cases hsplit
      exact List.cons_ne_nil _ _

/-- A directory entry "." is a link, so nothing is found under it. -/
theorem TreeInv.dot_childless (hi : TreeInv none v) {y : Nat} {m : Hashmap Nat} (hy : y < v.count)
    (hr : v.root ≠ some y) (hm : (v.node y).children = some m) (hg : hashmapGet m dot = some x) :
    (v.node x).children = none := by
  obtain ⟨d, hd, hlink⟩ := hi.self hy hr (by simp) hm
  rw [hd] at hg
  cases hg
  exact (hi.link (hi.child hy hm hd).1 hlink).2.1

/-- The name under which `vfs_create` adds a node. -/
theorem TreeInv.create_name (hi : TreeInv none v) {parent : Option Nat} {path : List Byte}
    (hp : ∀ d, parent = some d → d < v.count) (hz : 0 ∉ path)
    (h : pathToNode v parent path = some ⟨some p, none⟩) : basename path ≠ [] ∧ basename path ≠ dot := by
  have hne : path ≠ [] := by
    rintro rfl
    cases h
  obtain ⟨s, t, hs, ht, hcase⟩ := hi.resolves hp hz hne h
  have htr := hi.reduced_ne_root ht
  rcases hcase with ⟨_, hr⟩ | ⟨cs, hseg, hwalk⟩
  · cases hr
  · obtain ⟨pre, c, x, m, rfl, hpre, hx, hmiss⟩ := walkSegs_missing hwalk
    have hxe := (hi.walk_ends ht.lt htr ⟨hs.lt, hs.link⟩ hpre).2 x rfl
    by_cases hc : c = []
    · -- An empty last segment: the name is the segment before.
      subst hc
      rcases List.eq_nil_or_concat' pre with rfl | ⟨pre, e, rfl⟩
      · exact absurd rfl (segments_head hseg)
      · obtain ⟨q, y, my, hpre', hy, hge⟩ := walkSegs_last hpre
        have hye := (hi.walk_ends ht.lt htr ⟨hs.lt, hs.link⟩ hpre').2 y rfl
        have he := (hi.child hye.1 hy hge).2.2
        rw [List.append_assoc] at hseg
        rw [basename_segments (.inr hseg) he]
        refine ⟨he, ?_⟩
        rintro rfl
        rw [hi.dot_childless hye.1 hye.2 hy hge] at hx
        cases hx
    · rw [basename_segments (.inl hseg) hc]
      refine ⟨hc, ?_⟩
      rintro rfl
      obtain ⟨d, hd, _⟩ := hi.self hxe.1 hxe.2 (by simp) hx
      rw [hmiss] at hd
      cases hd

/-- The name under which `vfs_mount` adds a node. -/
theorem TreeInv.mount_name (hi : TreeInv none v) {parent : Option Nat} {path : List Byte}
    {q : Option Nat} (hp : ∀ d, parent = some d → d < v.count) (hz : 0 ∉ path)
    (h : pathToNode v parent path = some ⟨q, some x⟩) (hx : (v.node x).children.isSome) :
    basename path ≠ [] ∧ basename path ≠ dot := by
  have hne : path ≠ [] := by
    rintro rfl
    cases h
  obtain ⟨s, t, hs, ht, hcase⟩ := hi.resolves hp hz hne h
  have htr := hi.reduced_ne_root ht
  rcases hcase with ⟨hseg, _⟩ | ⟨cs, hseg, hwalk⟩
  · rw [basename_slashes hne (segments_eq_none hseg)]
    decide
  · rcases List.eq_nil_or_concat' cs with rfl | ⟨pre, c, rfl⟩
    · obtain ⟨new, _, hsplit⟩ := Option.map_eq_some_iff.mp hseg
      exact absurd hsplit (List.splitOn_ne_nil _ _)
    · obtain ⟨q, y, m, hpre, hy, hg⟩ := walkSegs_last hwalk
      have hye := (hi.walk_ends ht.lt htr ⟨hs.lt, hs.link⟩ hpre).2 y rfl
      have hc := (hi.child hye.1 hy hg).2.2
      rw [basename_segments (.inl hseg) hc]
      refine ⟨hc, ?_⟩
      rintro rfl
      rw [hi.dot_childless hye.1 hye.2 hy hg] at hx
      cases hx

end Resolve

/-! ### Calls -/

/-- `vfs_create` has added a node under the name `k`, and for a directory its
two links. -/
def Creates (v v' : Vfs) (p : Nat) (k : List Byte) (mode : Nat) : Prop :=
  ∃ v₁ new, Adds v v₁ p k new ∧ NewTmpfs mode new ∧
    if sIsDir mode then Dotted v₁ v' p v.count else v' = v₁

section Calls
variable {v v' : Vfs} {p mode : Nat} {parent : Option Nat} {path : List Byte}

theorem TreeInv.creates (hi : TreeInv none v) {k : List Byte} (h : Creates v v' p k mode)
    (hp : p < v.count) (hl : (v.node p).link = none) (hk : k ≠ []) (hdot : k ≠ dot) :
    TreeInv none v' := by
  obtain ⟨v₁, new, hadds, hnew, hrest⟩ := h
  have hinv := hi.adds hadds hnew hk hdot
  split at hrest
  · rename_i hdir
    rw [if_pos hdir] at hinv
    have hcount := hadds.count
    refine hinv.dotted hrest (by omega) (by omega) ?_
    rw [hadds.old.link hp]
    exact hl
  · rename_i hdir
    rw [if_neg hdir] at hinv
    rw [hrest]
    exact hinv

theorem vfsCreate_creates {c : Hashmap Nat} (hpath : pathToNode v parent path = some ⟨some p, none⟩)
    (hp : p < v.count) (hc : (v.node p).children = some c) (hfs : (v.node p).fs = some .tmpfs) :
    ∃ v', vfsCreate v parent path mode = some (some v.count, v') ∧
      Creates v v' p (basename path) mode := by
  obtain ⟨v₁, new, hcreate, hadds, hnew⟩ := @tmpfsCreate_adds v p c (basename path) mode hp hc
  by_cases hdir : sIsDir mode = true
  · have hch : (v₁.node v.count).children = some (hashmapCreate 256) := by
      rw [hadds.node, hnew.children, if_pos hdir]
    have hlt : v.count < v₁.count := by
      rw [hadds.count]
      exact Nat.lt_succ_self _
    obtain ⟨v₂, hdots, hdotted⟩ := createDot_dotted hlt hch p
    refine ⟨v₂, ?_, v₁, new, hadds, hnew, by rwa [if_pos hdir]⟩
    simp only [vfsCreate, hpath, hfs, hcreate, if_pos hdir, hdots, Option.bind_eq_bind, Option.bind_some]
    rfl
  · refine ⟨v₁, ?_, v₁, new, hadds, hnew, by rw [if_neg hdir]⟩
    simp only [vfsCreate, hpath, hfs, hcreate, if_neg hdir, Option.bind_eq_bind, Option.bind_some]
    rfl

/-- What a call of `vfs_create` that returns has done. -/
theorem TreeInv.vfsCreate_cases (hi : TreeInv none v) {r : Option Nat}
    (hp : ∀ d, parent = some d → d < v.count) (hz : 0 ∉ path)
    (h : vfsCreate v parent path mode = some (r, v')) :
    (r = none ∧ v' = v) ∨ ∃ p, pathToNode v parent path = some ⟨some p, none⟩ ∧ r = some v.count ∧
      Creates v v' p (basename path) mode := by
  cases hpath : pathToNode v parent path with
  | none =>
      simp [vfsCreate, hpath] at h
  | some res =>
      obtain ⟨pa, re⟩ := res
      cases pa with
      | none =>
          simp only [vfsCreate, hpath, Option.bind_eq_bind, Option.bind_some] at h
          cases h
          exact .inl ⟨rfl, rfl⟩
      | some p =>
          cases re with
          | some x =>
              simp only [vfsCreate, hpath, Option.bind_eq_bind, Option.bind_some] at h
              cases h
              exact .inl ⟨rfl, rfl⟩
          | none =>
              have hplt := ((hi.resolve_ends hp hz hpath).1 p rfl).1
              cases hc : (v.node p).children with
              | none =>
                  simp only [vfsCreate, hpath, Option.bind_eq_bind, Option.bind_some,
                    tmpfsCreate_null hplt hc, Option.bind_none] at h
                  cases hfs : (v.node p).fs with
                  | none =>
                      rw [hfs] at h
                      cases h
                  | some fs =>
                      cases fs with
                      | tmpfs =>
                          rw [hfs] at h
                          cases h
                      | ext2fs =>
                          rw [hfs] at h
                          cases h
                          exact .inl ⟨rfl, rfl⟩
              | some c =>
                  have hfs := hi.fs hplt (by rw [hc]; rfl)
                  obtain ⟨v₁, hcreate, hcreates⟩ := @vfsCreate_creates v p mode parent path c hpath hplt hc hfs
                  rw [hcreate] at h
                  cases h
                  exact .inr ⟨p, rfl, rfl, hcreates⟩

theorem TreeInv.vfsCreate (hi : TreeInv none v) {r : Option Nat}
    (hp : ∀ d, parent = some d → d < v.count) (hz : 0 ∉ path)
    (h : vfsCreate v parent path mode = some (r, v')) : TreeInv none v' := by
  rcases hi.vfsCreate_cases hp hz h with ⟨_, rfl⟩ | ⟨p, hpath, _, hcreates⟩
  · exact hi
  · obtain ⟨hplt, hl⟩ := (hi.resolve_ends hp hz hpath).1 p rfl
    obtain ⟨hk, hdot⟩ := hi.create_name hp hz hpath
    exact hi.creates hcreates hplt hl hk hdot

/-- What `vfs_mount` of a tmpfs does once its target is found. -/
def Mounts (v v' : Vfs) (p t : Nat) (k : List Byte) : Prop :=
  ∃ v₁ new, Adds v v₁ t k new ∧ NewTmpfs sIfdir new ∧
    Dotted (v₁.modify t fun node => { node with fs := some .tmpfs, mountpoint := some v.count }) v' p
      v.count

theorem mountTmpfs_mounts {p t : Nat} {k : List Byte} {c : Hashmap Nat} (ht : t < v.count)
    (hc : (v.node t).children = some c) :
    ∃ v', mountTmpfs v ⟨some p, some t⟩ k = some v' ∧ Mounts v v' p t k := by
  obtain ⟨v₁, new, hcreate, hadds, hnew⟩ := @tmpfsCreate_adds v t c k sIfdir ht hc
  have hne : v.count ≠ t := Nat.ne_of_gt ht
  let v₂ := v₁.modify t fun node => { node with fs := some .tmpfs, mountpoint := some v.count }
  have hch : (v₂.node v.count).children = some (hashmapCreate 256) := by
    simp only [v₂, Vfs.modify, Function.update_of_ne hne, hadds.node, hnew.children]
    rfl
  have hlt : v.count < v₂.count := by
    show v.count < v₁.count
    rw [hadds.count]
    exact Nat.lt_succ_self _
  obtain ⟨v', hdots, hdotted⟩ := createDot_dotted hlt hch p
  refine ⟨v', ?_, v₁, new, hadds, hnew, hdotted⟩
  rw [← hdots]
  simp only [mountTmpfs, tmpfsMount, hcreate, Option.bind_eq_bind, Option.bind_some, Option.pure_def,
    Vfs.modify, Function.update_self, Function.update_idem, v₂]

theorem mountTmpfs_null {r : PathToNode} {k : List Byte}
    (h : ∀ t, r.result = some t → t < v.count ∧ (v.node t).children = none) :
    mountTmpfs v r k = none := by
  cases hr : r.result with
  | none =>
      simp only [mountTmpfs, hr, Option.bind_eq_bind, Option.bind_none]
      cases tmpfsMount v none k <;> rfl
  | some t =>
      obtain ⟨ht, hc⟩ := h t hr
      simp [mountTmpfs, tmpfsMount, hr, tmpfsCreate_null ht hc]

/-- What a call of `vfs_mount` that returns has done. -/
theorem TreeInv.vfsMount_cases (hi : TreeInv none v) {b : Bool} {source : Option (List Byte)}
    {fsName : List Byte} (hp : ∀ d, parent = some d → d < v.count) (hz : 0 ∉ path)
    (h : vfsMount v parent source path fsName = some (b, v')) :
    ∃ p t, pathToNode v parent path = some ⟨some p, some t⟩ ∧ (v.node t).children.isSome ∧
      Mounts v v' p t (basename path) := by
  simp only [vfsMount, Option.bind_eq_bind, Option.bind_eq_some_iff] at h
  obtain ⟨fs, _, dev, _, r, hpath, h⟩ := h
  have hends := hi.resolve_ends hp hz hpath
  cases fs with
  | ext2fs => cases h
  | tmpfs =>
      obtain ⟨w, hmount, hret⟩ := Option.bind_eq_some_iff.mp h
      cases hret
      obtain ⟨rp, rt⟩ := r
      cases rt with
      | none =>
          rw [mountTmpfs_null (by rintro _ ⟨⟩)] at hmount
          cases hmount
      | some t =>
          have htlt := (hends.2 t rfl).1
          cases hc : (v.node t).children with
          | none =>
              rw [mountTmpfs_null (by rintro _ ⟨⟩; exact ⟨htlt, hc⟩)] at hmount
              cases hmount
          | some c =>
              cases rp with
              | none =>
                  simp only [mountTmpfs, Option.bind_eq_bind, Option.bind_some, Option.bind_none] at hmount
                  cases hm : tmpfsMount v (some t) (basename path) with
                  | none =>
                      rw [hm] at hmount
                      cases hmount
                  | some r =>
                      rw [hm] at hmount
                      cases hmount
              | some p =>
                  obtain ⟨w', hw, hmounts⟩ := @mountTmpfs_mounts v p t (basename path) c htlt hc
                  rw [hw] at hmount
                  cases hmount
                  exact ⟨p, t, hpath, by rw [hc]; rfl, hmounts⟩

theorem TreeInv.mounts (hi : TreeInv none v) {p t : Nat} {k : List Byte} (h : Mounts v v' p t k)
    (ht : t < v.count) (hp : p < v.count) (hl : (v.node p).link = none)
    (hk : k ≠ []) (hdot : k ≠ dot) : TreeInv none v' := by
  obtain ⟨v₁, new, hadds, hnew, hdotted⟩ := h
  have hcount := hadds.count
  have hinv : TreeInv (some v.count) v₁ := hi.adds hadds hnew hk hdot
  obtain ⟨c, hc, hpar⟩ := hadds.parent
  have hmounted := hinv.mounted (t := t) ht (by omega) (by rw [hpar]; rfl)
    (by rw [hadds.node, hnew.children]; rfl)
  refine hmounted.dotted hdotted ?_ ?_ ?_
  · show v.count < v₁.count
    omega
  · show p < v₁.count
    omega
  · have hold := hadds.old.link hp
    by_cases hpt : p = t
    · subst hpt
      simp only [Vfs.modify, Function.update_self, hold, hl]
    · simp only [Vfs.modify, Function.update_of_ne hpt, hold, hl]

theorem TreeInv.vfsMount (hi : TreeInv none v) {b : Bool} {source : Option (List Byte)}
    {fsName : List Byte} (hp : ∀ d, parent = some d → d < v.count) (hz : 0 ∉ path)
    (h : vfsMount v parent source path fsName = some (b, v')) : TreeInv none v' := by
  obtain ⟨p, t, hpath, hch, hmounts⟩ := hi.vfsMount_cases hp hz h
  have hends := hi.resolve_ends hp hz hpath
  obtain ⟨hplt, hl⟩ := hends.1 p rfl
  obtain ⟨hk, hdot⟩ := hi.mount_name hp hz hpath hch
  exact hi.mounts hmounts (hends.2 t rfl).1 hplt hl hk hdot

end Calls

/-! ### Reachable trees -/

section Init
variable {heap : Nat → Mem} {v : Vfs}

/-- The tree while `vfs_init` mounts the root. -/
def rootOnly (heap : Nat → Mem) : Vfs :=
  { noVfs heap with
    node := Function.update (noVfs heap).node 0 (newNode [] none none true)
    count := 1
    root := some 0
    filesystems := hashmapSet (hashmapSet (hashmapCreate 64) tmpfsName .tmpfs) ext2fsName .ext2fs }

theorem vfsInit_mounts : ∃ v, vfsInit heap = some v ∧ Mounts (rootOnly heap) v 0 0 [slash] := by
  obtain ⟨v, hv, hmounts⟩ :=
    @mountTmpfs_mounts (rootOnly heap) 0 0 [slash] (hashmapCreate 256) Nat.one_pos rfl
  refine ⟨v, ?_, hmounts⟩
  have hfs : hashmapGet (rootOnly heap).filesystems tmpfsName = some .tmpfs := by
    simp only [rootOnly, hashmapGet_set]
    decide
  have hpath : pathToNode (rootOnly heap) (some 0) [slash] = some ⟨some 0, some 0⟩ := rfl
  have hmount : vfsMount (rootOnly heap) (some 0) none [slash] tmpfsName = some (true, v) := by
    simp only [vfsMount, hfs, hpath, sourceNode, Option.bind_eq_bind, Option.bind_some]
    rw [show basename [slash] = [slash] from rfl, hv]
    rfl
  show ((vfsMount (rootOnly heap) (some 0) none [slash] tmpfsName).bind fun r => some r.2) = some v
  rw [hmount]
  rfl

/-- The root and the directory mounted on it, before the latter has its links. -/
theorem treeInv_mounted_root {v₁ : Vfs} {new : VfsNode} (hadds : Adds (rootOnly heap) v₁ 0 [slash] new)
    (hnew : NewTmpfs sIfdir new) (hzero : v₁.node 0 = { newNode [] none none true with
      children := some (hashmapSet (hashmapCreate 256) [slash] 1) }) :
    TreeInv (some 1) (v₁.modify 0 fun node => { node with fs := some .tmpfs, mountpoint := some 1 }) := by
  have hcount : v₁.count = 2 := hadds.count
  have hroot : v₁.root = some 0 := hadds.root
  have hnode : v₁.node 1 = new := hadds.node
  have htwo : ∀ {x}, x < v₁.count → x = 0 ∨ x = 1 := fun hx => by omega
  have hn₀ : ∀ f, (v₁.modify 0 f).node 0 = f (v₁.node 0) := fun f => v₁.modify_self 0 f
  have hn₁ : ∀ f, (v₁.modify 0 f).node 1 = new := fun f => by
    rw [← hnode]
    exact v₁.modify_of_ne (by decide) f
  constructor
  · exact ⟨0, hroot, by show 0 < v₁.count; omega, by rw [hn₀]; rfl⟩
  · intro n m c k hn hc hget
    show m < v₁.count ∧ v₁.root ≠ some m ∧ k ≠ []
    rw [hroot, hcount]
    rcases htwo hn with rfl | rfl
    · rw [hn₀, hzero] at hc
      cases hc
      rw [hashmapGet_set, hashmapGet_create] at hget
      split at hget
      · rename_i hk
        cases hget
        exact ⟨by omega, by decide, by rw [hk]; decide⟩
      · cases hget
    · rw [hn₁, hnew.children] at hc
      cases hc
      rw [hashmapGet_create] at hget
      cases hget
  · intro n m hn hm
    show n < m ∧ m < v₁.count ∧ _
    rcases htwo hn with rfl | rfl
    · rw [hn₀] at hm
      cases hm
      rw [hn₀, hn₁, hnew.children, hzero]
      exact ⟨by omega, by omega, rfl, rfl⟩
    · rw [hn₁, hnew.mountpoint] at hm
      cases hm
  · intro n l hn hl
    rcases htwo hn with rfl | rfl
    · rw [hn₀, hzero] at hl
      cases hl
    · rw [hn₁, hnew.link] at hl
      cases hl
  · intro n c hn hr hbare _
    rcases htwo hn with rfl | rfl
    · exact absurd hroot hr
    · exact absurd rfl hbare
  · intro n hn _
    rcases htwo hn with rfl | rfl
    · rw [hn₀]
    · rw [hn₁]
      exact hnew.fs

theorem treeInv_init (h : Mounts (rootOnly heap) v 0 0 [slash]) : TreeInv none v := by
  obtain ⟨v₁, new, hadds, hnew, hdotted⟩ := h
  obtain ⟨c, hc, hpar⟩ := hadds.parent
  have hcount : v₁.count = 2 := hadds.count
  cases hc
  have hzero : v₁.node 0 = { newNode [] none none true with
      children := some (hashmapSet (hashmapCreate 256) [slash] 1) } := hpar
  refine (treeInv_mounted_root hadds hnew hzero).dotted hdotted ?_ ?_ ?_
  · show 1 < v₁.count
    omega
  · show 0 < v₁.count
    omega
  · show ((v₁.modify 0 _).node 0).link = none
    rw [Vfs.modify_self, hzero]
    rfl

end Init

/-- The trees that `vfs_init`, `vfs_create` and `vfs_mount` build. Starting nodes
are null or allocated; paths are strings. -/
inductive VfsReaches : Vfs → Prop
  | init {heap : Nat → Mem} {v : Vfs} (h : vfsInit heap = some v) : VfsReaches v
  | create {v v' : Vfs} {parent r : Option Nat} {path : List Byte} {mode : Nat} (hv : VfsReaches v)
      (hp : ∀ d, parent = some d → d < v.count) (hz : 0 ∉ path)
      (h : vfsCreate v parent path mode = some (r, v')) : VfsReaches v'
  | mount {v v' : Vfs} {parent : Option Nat} {source : Option (List Byte)} {target fsName : List Byte}
      {b : Bool} (hv : VfsReaches v) (hp : ∀ d, parent = some d → d < v.count) (hz : 0 ∉ target)
      (h : vfsMount v parent source target fsName = some (b, v')) : VfsReaches v'

theorem VfsReaches.inv {v : Vfs} (h : VfsReaches v) : TreeInv none v := by
  induction h with
  | init h =>
      obtain ⟨v, hv, hmounts⟩ := vfsInit_mounts
      rw [hv] at h
      cases h
      exact treeInv_init hmounts
  | create _ hp hz h ih => exact ih.vfsCreate hp hz h
  | mount _ hp hz h ih => exact ih.vfsMount hp hz h

end Flan.Fs
