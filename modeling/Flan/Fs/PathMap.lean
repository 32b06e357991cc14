import Flan.Fs.Resolve

/-! The tree as a map from paths to nodes: what sequences of `vfs_create` from the
root build, and what `get_node` finds there. -/
namespace Flan.Fs
open Flan.Lib Flan.Memory

/-! ### The abstract map -/

/-- What a path names: a node, and whether it is a directory. -/
structure Named where
  node : Nat
  dir : Bool
  deriving DecidableEq

/-- Paths are lists of components; the root is not part of the map. -/
abbrev PathMap := List (List Byte) → Option Named

namespace PathMap

/-- The path is new, and its parent is the root or a directory. -/
def CanCreate (m : PathMap) (cs : List (List Byte)) : Prop :=
  m cs = none ∧ (cs.dropLast = [] ∨ ∃ e, m cs.dropLast = some e ∧ e.dir = true)

/-- No proper prefix of the path names a regular file. -/
def NoFileBelow (m : PathMap) (cs : List (List Byte)) : Prop :=
  ∀ pre c rest, cs = pre ++ c :: rest → ∀ e, m pre = some e → e.dir = true

/-- The node at a path, with `t` at the root. -/
def nodeAt (t : Nat) (m : PathMap) (cs : List (List Byte)) : Option Nat :=
  if cs = [] then some t else (m cs).map Named.node

variable {t : Nat} {m : PathMap} {cs : List (List Byte)} {c : List Byte}

@[simp] theorem nodeAt_nil : m.nodeAt t [] = some t := rfl

theorem nodeAt_of_ne (h : cs ≠ []) : m.nodeAt t cs = (m cs).map Named.node := if_neg h

/-- A node is at the root or in the map. -/
theorem nodeAt_cases {n : Nat} (h : m.nodeAt t cs = some n) :
    cs = [] ∧ n = t ∨ ∃ e, m cs = some e ∧ e.node = n := by
  by_cases hcs : cs = []
  · subst hcs
    cases h
    exact .inl ⟨rfl, rfl⟩
  · rw [nodeAt_of_ne hcs] at h
    exact .inr (Option.map_eq_some_iff.mp h)

theorem nodeAt_none {n : Nat} (h : nodeAt t (fun _ => none) cs = some n) : cs = [] ∧ n = t := by
  rcases nodeAt_cases h with hroot | ⟨e, he, -⟩
  · exact hroot
  · cases he

theorem nodeAt_snoc : m.nodeAt t (cs ++ [c]) = (m (cs ++ [c])).map Named.node :=
  nodeAt_of_ne (List.concat_ne_nil _ _)

theorem NoFileBelow.init (h : m.NoFileBelow (cs ++ [c])) : m.NoFileBelow cs := by
  rintro pre d rest rfl
  exact h pre d (rest ++ [c]) (by rw [List.append_assoc, List.cons_append])

theorem noFileBelow_nil : m.NoFileBelow [] := by
  intro pre c rest h
  cases pre <;> cases h

theorem NoFileBelow.snoc (h : m.NoFileBelow cs)
    (hdir : ∀ e, m cs = some e → e.dir = true) : m.NoFileBelow (cs ++ [c]) := by
  intro pre d rest heq e he
  rcases List.eq_nil_or_concat' rest with rfl | ⟨rest, x, rfl⟩
  · obtain ⟨rfl, _⟩ := List.append_singleton_inj.mp heq
    exact hdir e he
  · rw [← List.cons_append, ← List.append_assoc] at heq
    exact h pre d rest (List.append_singleton_inj.mp heq).1 e he

end PathMap

/-! ### Spellings -/

/-- A component: not empty, without slash, and neither "." nor "..". -/
structure Component (c : List Byte) : Prop where
  ne_nil : c ≠ []
  slash : slash ∉ c
  str : 0 ∉ c
  ne_dot : c ≠ dot
  ne_dotdot : c ≠ dotdot

theorem Component.piece {c : List Byte} (h : Component c) : c ≠ [] ∧ Fs.slash ∉ c := ⟨h.ne_nil, h.slash⟩

/-- The path with these components, with or without a slash at either end. -/
def spell (lead trail : Bool) (cs : List (List Byte)) : List Byte :=
  (if lead then [slash] else []) ++ ([slash].intercalate cs ++ if trail then [slash] else [])

structure Spells (path : List Byte) (cs : List (List Byte)) : Prop where
  ne_nil : cs ≠ []
  comps : ∀ c ∈ cs, Component c
  eq : ∃ lead trail, path = spell lead trail cs

section Spell
variable {cs : List (List Byte)} {path : List Byte}

theorem intercalate_head (hne : cs ≠ []) (hcs : ∀ c ∈ cs, c ≠ [] ∧ slash ∉ c) :
    ∃ x xs, [slash].intercalate cs = x :: xs ∧ x ≠ slash := by
  cases cs with
  | nil => exact absurd rfl hne
  | cons c cs =>
      have hc := hcs c List.mem_cons_self
      cases c with
      | nil => exact absurd rfl hc.1
      | cons x c =>
          have hx : x ≠ slash := fun h => hc.2 (h ▸ List.mem_cons_self)
          cases cs with
          | nil => exact ⟨x, c, List.intercalate_singleton, hx⟩
          | cons d cs =>
              rw [List.intercalate_cons_cons, List.append_assoc, List.cons_append]
              exact ⟨x, _, rfl, hx⟩

theorem intercalate_getLast (hne : cs ≠ []) (hcs : ∀ c ∈ cs, c ≠ [] ∧ slash ∉ c) :
    ([slash].intercalate cs).getLast? ≠ some slash := by
  rcases List.eq_nil_or_concat' cs with rfl | ⟨pre, c, rfl⟩
  · exact absurd rfl hne
  · obtain ⟨a, ha, _⟩ := intercalate_concat pre c
    have hc := hcs c List.mem_concat_self
    intro h
    rw [ha, List.getLast?_append_of_ne_nil _ hc.1] at h
    exact hc.2 (List.mem_of_getLast? h)

theorem zero_not_mem_intercalate (hcs : ∀ c ∈ cs, Component c) : 0 ∉ [slash].intercalate cs := by
  induction cs with
  | nil => exact List.not_mem_nil
  | cons c cs ih =>
      have hc := (hcs c List.mem_cons_self).str
      have hrest := ih fun d hd => hcs d (List.mem_cons_of_mem _ hd)
      cases cs with
      | nil => rwa [List.intercalate_singleton]
      | cons d cs =>
          rw [List.intercalate_cons_cons]
          simp only [List.mem_append, not_or]
          exact ⟨⟨hc, by decide⟩, hrest⟩

theorem Spells.str (h : Spells path cs) : 0 ∉ path := by
  obtain ⟨lead, trail, rfl⟩ := h.eq
  have hmid := zero_not_mem_intercalate h.comps
  simp only [spell, List.mem_append, not_or]
  refine ⟨?_, hmid, ?_⟩
  · cases lead <;> decide
  · cases trail <;> decide

theorem newPath_spell (hne : cs ≠ []) (hcs : ∀ c ∈ cs, c ≠ [] ∧ slash ∉ c) (lead trail : Bool) :
    newPath (spell lead trail cs) = some ([slash].intercalate cs) := by
  obtain ⟨x, xs, hmid, hx⟩ := intercalate_head hne hcs
  have hlast := intercalate_getLast hne hcs
  have hskip : skipSlashes (spell lead trail cs) =
      some ([slash].intercalate cs ++ if trail then [slash] else []) := by
    rw [spell, hmid]
    cases lead <;> simp [skipSlashes, hx]
  rw [Fs.newPath, hskip, Option.map_some]
  cases trail with
  | true =>
      rw [if_pos rfl, if_pos, List.dropLast_concat]
      rw [spell, if_pos rfl, ← List.append_assoc]
      exact List.getLast?_concat
  | false =>
      have hend : (spell lead false cs).getLast? = ([slash].intercalate cs).getLast? := by
        rw [spell, if_neg Bool.false_ne_true, List.append_nil]
        exact List.getLast?_append_of_ne_nil _ (by rw [hmid]; exact List.cons_ne_nil _ _)
      rw [hend, if_neg hlast, if_neg Bool.false_ne_true, List.append_nil]

theorem segments_spell (hne : cs ≠ []) (hcs : ∀ c ∈ cs, c ≠ [] ∧ slash ∉ c) (lead trail : Bool) :
    segments (spell lead trail cs) = some cs := by
  rw [Fs.segments, newPath_spell hne hcs, Option.map_some,
    List.splitOn_intercalate slash (fun c hc => (hcs c hc).2) hne]

theorem Spells.segments (h : Spells path cs) : segments path = some cs := by
  obtain ⟨lead, trail, rfl⟩ := h.eq
  exact segments_spell h.ne_nil (fun c hc => (h.comps c hc).piece) lead trail

theorem Spells.path_ne_nil (h : Spells path cs) : path ≠ [] := by
  rintro rfl
  have hseg := h.segments
  cases hseg

theorem Spells.basename {pre : List (List Byte)} {c : List Byte} (h : Spells path (pre ++ [c])) :
    basename path = c :=
  basename_segments (.inl h.segments) (h.comps c List.mem_concat_self).ne_nil

end Spell

/-! ### The tree realises the map -/

/-- Paths lead from the mounted root `t` to the nodes of the map. -/
structure Realizes (t : Nat) (v : Vfs) (m : PathMap) : Prop where
  tree : TreeInv none v
  root : ∃ r, v.root = some r ∧ (v.node r).mountpoint = some t
  reduced : ∀ {cs n}, m.nodeAt t cs = some n → Reduced v n
  top : (v.node t).children.isSome
  dir : ∀ {cs e}, m cs = some e → (v.node e.node).children.isSome = e.dir
  child : ∀ {cs n h c}, m.nodeAt t cs = some n → (v.node n).children = some h → Component c →
    hashmapGet h c = m.nodeAt t (cs ++ [c])
  parent : ∀ {cs c e}, m (cs ++ [c]) = some e →
    ∃ n, m.nodeAt t cs = some n ∧ (v.node n).children.isSome
  nil : m [] = none
  inj : ∀ {cs cs' n}, m.nodeAt t cs = some n → m.nodeAt t cs' = some n → cs = cs'

/-- Where a walk from the root ends. -/
inductive WalkEnd (t : Nat) (v : Vfs) (m : PathMap) : List (List Byte) → PathToNode → Prop
  | found {cs p x} (hat : m.nodeAt t cs = some x) (hp : (v.node x).children.isSome → p = x) :
      WalkEnd t v m cs ⟨some p, some x⟩
  | missing {cs c y} (hno : m.nodeAt t (cs ++ [c]) = none) (hat : m.nodeAt t cs = some y)
      (hy : (v.node y).children.isSome) : WalkEnd t v m (cs ++ [c]) ⟨some y, none⟩
  | lost {cs c} (hno : m.nodeAt t (cs ++ [c]) = none) (hat : m.nodeAt t cs = none) :
      WalkEnd t v m (cs ++ [c]) ⟨none, none⟩

section Walk
variable {t : Nat} {v v' : Vfs} {m : PathMap} {cs : List (List Byte)} {path : List Byte}

theorem TreeInv.root_lt (hi : TreeInv none v) {d : Nat} (hd : v.root = some d) : d < v.count := by
  obtain ⟨r, hr, hlt, _⟩ := hi.root
  rw [hr] at hd
  cases hd
  exact hlt

theorem Realizes.missing_below {c : List Byte} (h : Realizes t v m) (hno : m.nodeAt t cs = none) :
    m.nodeAt t (cs ++ [c]) = none := by
  rw [PathMap.nodeAt_snoc, Option.map_eq_none_iff]
  cases hm : m (cs ++ [c]) with
  | none => rfl
  | some e =>
      obtain ⟨n, hn, _⟩ := h.parent hm
      rw [hno] at hn
      cases hn

theorem Realizes.dir_below {c : List Byte} {x : Nat} (h : Realizes t v m)
    (hfile : m.NoFileBelow (cs ++ [c])) (hat : m.nodeAt t cs = some x) :
    (v.node x).children.isSome := by
  rcases PathMap.nodeAt_cases hat with ⟨-, rfl⟩ | ⟨e, he, rfl⟩
  · exact h.top
  · rw [h.dir he]
    exact hfile cs c [] rfl e he

theorem Realizes.nodeAt {e : Named} (h : Realizes t v m) (hm : m cs = some e) :
    m.nodeAt t cs = some e.node := by
  rw [PathMap.nodeAt_of_ne, hm]
  · rfl
  · rintro rfl
    rw [h.nil] at hm
    cases hm

theorem Realizes.node_lt {e : Named} (h : Realizes t v m) (hm : m cs = some e) : e.node < v.count :=
  (h.reduced (h.nodeAt hm)).lt

/-- Only the root is above a path of one component. -/
theorem Realizes.noFileBelow_single (h : Realizes t v m) (c : List Byte) : m.NoFileBelow [c] := by
  refine PathMap.noFileBelow_nil.snoc fun e he => ?_
  rw [h.nil] at he
  cases he

/-- What is in the map has directories above it. -/
theorem Realizes.noFileBelow {e : Named} (h : Realizes t v m) (hm : m cs = some e) : m.NoFileBelow cs := by
  induction cs using List.reverseRecOn generalizing e with
  | nil => exact PathMap.noFileBelow_nil
  | append_singleton cs c ih =>
      obtain ⟨x, hx, hdir⟩ := h.parent hm
      rcases PathMap.nodeAt_cases hx with ⟨rfl, -⟩ | ⟨d, hd, rfl⟩
      · exact h.noFileBelow_single c
      · refine (ih hd).snoc fun e he => ?_
        rw [hd] at he
        cases he
        rw [← h.dir hd]
        exact hdir

theorem Realizes.noFileBelow_of_canCreate (h : Realizes t v m) (hne : cs ≠ []) (hcan : m.CanCreate cs) :
    m.NoFileBelow cs := by
  rw [← List.dropLast_concat_getLast hne]
  rcases hcan.2 with hnil | ⟨e, he, hdir⟩
  · rw [hnil]
    exact h.noFileBelow_single _
  · refine (h.noFileBelow he).snoc fun d hd => ?_
    rw [he] at hd
    cases hd
    exact hdir

theorem Realizes.same (h : Realizes t v m) (hs : SameTree v v') : Realizes t v' m := by
  constructor
  · exact hs.tree h.tree
  · simp only [hs.root, hs.mountpoint]
    exact h.root
  · intro cs x hx
    obtain ⟨hlt, hmount, hlink⟩ := h.reduced hx
    exact ⟨hs.count ▸ hlt, (hs.mountpoint x).trans hmount, (hs.link x).trans hlink⟩
  · rw [hs.children]
    exact h.top
  · simp only [hs.children]
    exact h.dir
  · simp only [hs.children]
    exact h.child
  · simp only [hs.children]
    exact h.parent
  · exact h.nil
  · exact h.inj

theorem Realizes.walk (h : Realizes t v m) (hcs : ∀ c ∈ cs, Component c) (hfile : m.NoFileBelow cs) :
    ∃ r, walkSegs v cs t t = some r ∧ WalkEnd t v m cs r := by
  induction cs using List.reverseRecOn with
  | nil => exact ⟨_, rfl, .found rfl fun _ => rfl⟩
  | append_singleton cs c ih =>
      obtain ⟨r, hr, hend⟩ := ih (fun d hd => hcs d (List.mem_append_left _ hd)) hfile.init
      rw [walkSegs_append, hr, Option.bind_some]
      cases hend with
      | @found _ p x hat hp =>
          have hdir := h.dir_below hfile hat
          obtain ⟨ch, hch⟩ := Option.isSome_iff_exists.mp hdir
          have hget := h.child hat hch (hcs c List.mem_concat_self)
          cases hp hdir
          simp only [walkSegs, hch, hget]
          cases hat' : m.nodeAt t (cs ++ [c]) with
          | none => exact ⟨_, rfl, .missing hat' hat hdir⟩
          | some y =>
              refine ⟨_, rfl, .found hat' fun hy => ?_⟩
              rw [if_pos hy]
      | missing hno hat hy => exact ⟨_, rfl, .lost (h.missing_below hno) hno⟩
      | lost hno hat => exact ⟨_, rfl, .lost (h.missing_below hno) hno⟩

theorem Realizes.reduces_root (h : Realizes t v m) : v.root.bind (reduceNode v) = some t := by
  obtain ⟨r, hr, hm⟩ := h.root
  have ht : Reduced v t := h.reduced PathMap.nodeAt_nil
  obtain ⟨k, hk⟩ := Nat.exists_eq_add_of_lt ht.lt
  rw [hr, Option.bind_some]
  simp only [reduceNode, hk, reduceFrom, hm, ht.mountpoint, ht.link]

/-- `path_to_node` from the root, for a spelled path. -/
theorem Realizes.pathToNode (h : Realizes t v m) (hs : Spells path cs) (hfile : m.NoFileBelow cs) :
    ∃ r, pathToNode v v.root path = some r ∧ WalkEnd t v m cs r := by
  have hroot := h.reduces_root
  obtain ⟨s, u, hstart, _, _, hs', hu⟩ := h.tree.starts v.root (fun _ => h.tree.root_lt) path
  have horElse : (v.root <|> v.root) = v.root := by cases v.root <;> rfl
  rw [horElse, hroot] at hs'
  cases hs'
  rw [hroot, ite_self] at hu
  cases hu
  obtain ⟨res, hwalk, hend⟩ := h.walk hs.comps hfile
  refine ⟨res, ?_, hend⟩
  rw [pathToNode_eq v v.root hs.str hs.path_ne_nil, hstart, Option.bind_some, hs.segments]
  exact hwalk

theorem Realizes.getNode (h : Realizes t v m) (hs : Spells path cs) (hfile : m.NoFileBelow cs) :
    getNode v v.root path = some ((m cs).map Named.node) := by
  obtain ⟨r, hr, hend⟩ := h.pathToNode hs hfile
  rw [Fs.getNode, hr, Option.map_some, ← PathMap.nodeAt_of_ne hs.ne_nil]
  cases hend with
  | found hat _ => rw [hat]
  | missing hno _ _ => rw [hno]
  | lost hno _ => rw [hno]

end Walk

/-! ### Creation -/

/-- The net effect of `vfs_create`: the node `v.count` under the name `k` of `p`. -/
structure Grows (v v' : Vfs) (p : Nat) (k : List Byte) (mode : Nat) : Prop where
  count : v.count < v'.count
  root : v'.root = v.root
  old : ∀ {x}, x < v.count → ∃ ch, v'.node x = { v.node x with children := ch } ∧
    ch.isSome = (v.node x).children.isSome
  get : ∀ {x c'}, x < v.count → (v'.node x).children = some c' → ∃ c, (v.node x).children = some c ∧
    ∀ key, hashmapGet c' key = if x = p ∧ key = k then some v.count else hashmapGet c key
  fresh : Reduced v' v.count
  dir : (v'.node v.count).children.isSome = sIsDir mode
  empty : ∀ {c key}, (v'.node v.count).children = some c → key ≠ dot → key ≠ dotdot →
    hashmapGet c key = none
  file : sIsReg mode = true → sIsDir mode = false → FileInv [] (v'.node v.count)
  stMode : (v'.node v.count).st.mode = mode
  fs : (v'.node v.count).fs = some .tmpfs

section Grow
variable {v v' v₁ : Vfs} {p mode : Nat} {k : List Byte} {new : VfsNode}

theorem Adds.grows (h : Adds v v' p k new) (hnew : NewTmpfs mode new) : Grows v v' p k mode := by
  have hch : (v'.node v.count).children = if sIsDir mode then some (hashmapCreate 256) else none := by
    rw [h.node, hnew.children]
  refine ⟨?_, h.root, h.old.node, h.get, ⟨?_, ?_, ?_⟩, ?_, ?_, ?_, ?_, ?_⟩
  · rw [h.count]
    exact Nat.lt_succ_self _
  · rw [h.count]
    exact Nat.lt_succ_self _
  · rw [h.node, hnew.mountpoint]
  · rw [h.node, hnew.link]
  · rw [hch]
    cases sIsDir mode <;> rfl
  · intro c key hc _ _
    rw [hch] at hc
    split at hc
    · cases hc
      exact hashmapGet_create _ _
    · cases hc
  · intro hreg _
    rw [h.node]
    exact hnew.file hreg
  · rw [h.node]
    exact hnew.stMode
  · rw [h.node]
    exact hnew.fs

/-- The entries "." and ".." of the new directory. -/
theorem Grows.dotted (h : Grows v v₁ p k mode) (hdot : Dotted v₁ v' p v.count)
    (hdir : sIsDir mode = true) : Grows v v' p k mode := by
  have hlt := h.count
  have hothers : ∀ {x}, x < v.count → v'.node x = v₁.node x :=
    fun hx => hdot.others _ (by omega) (by omega)
  obtain ⟨c, c', hc, hnode, hget⟩ := hdot.dir
  refine ⟨?_, hdot.root.trans h.root, ?_, ?_, ⟨?_, ?_, ?_⟩, ?_, ?_, ?_, ?_, ?_⟩
  · rw [hdot.count]
    omega
  · intro x hx
    rw [hothers hx]
    exact h.old hx
  · intro x cx hx hcx
    rw [hothers hx] at hcx
    exact h.get hx hcx
  · rw [hdot.count]
    omega
  · rw [hnode]
    exact h.fresh.mountpoint
  · rw [hnode]
    exact h.fresh.link
  · rw [hnode, hdir]
    rfl
  · intro d key hd hk hk'
    rw [hnode] at hd
    cases hd
    rw [hget, if_neg hk', if_neg hk]
    exact h.empty hc hk hk'
  · intro _ hno
    rw [hdir] at hno
    cases hno
  · rw [hnode]
    exact h.stMode
  · rw [hnode]
    exact h.fs

theorem Creates.grows (h : Creates v v' p k mode) : Grows v v' p k mode := by
  obtain ⟨v₁, new, hadds, hnew, hrest⟩ := h
  split at hrest
  · rename_i hdir
    exact (hadds.grows hnew).dotted hrest hdir
  · rw [hrest]
    exact hadds.grows hnew

theorem Grows.reduced (h : Grows v v' p k mode) {x : Nat} (hx : Reduced v x) : Reduced v' x := by
  obtain ⟨ch, hnode, _⟩ := h.old hx.lt
  refine ⟨Nat.lt_trans hx.lt h.count, ?_, ?_⟩
  · rw [hnode]
    exact hx.mountpoint
  · rw [hnode]
    exact hx.link

theorem Grows.isSome (h : Grows v v' p k mode) {x : Nat} (hx : x < v.count) :
    (v'.node x).children.isSome = (v.node x).children.isSome := by
  obtain ⟨ch, hnode, hch⟩ := h.old hx
  rw [hnode]
  exact hch

end Grow

section Create
variable {t : Nat} {v v' : Vfs} {m : PathMap} {cs : List (List Byte)} {c path : List Byte}
  {mode y n : Nat}

/-- The map after a creation. -/
def PathMap.insert (m : PathMap) (cs : List (List Byte)) (n mode : Nat) : PathMap :=
  Function.update m cs (some ⟨n, sIsDir mode⟩)

theorem PathMap.nodeAt_insert {qs : List (List Byte)} (hcs : cs ≠ []) :
    (m.insert cs n mode).nodeAt t qs = if qs = cs then some n else m.nodeAt t qs := by
  by_cases hq : qs = cs
  · subst hq
    rw [if_pos rfl, nodeAt_of_ne hcs, PathMap.insert, Function.update_self]
    rfl
  · rw [if_neg hq]
    simp only [nodeAt, PathMap.insert, Function.update_of_ne hq]

/-- A name below a node of the map is one path. -/
theorem Realizes.below_iff (h : Realizes t v m) (hat : m.nodeAt t cs = some y) {qs : List (List Byte)} {x : Nat}
    {d : List Byte} (hx : m.nodeAt t qs = some x) : (x = y ∧ d = c) ↔ qs ++ [d] = cs ++ [c] := by
  rw [List.append_singleton_inj]
  constructor
  · rintro ⟨rfl, rfl⟩
    exact ⟨h.inj hx hat, rfl⟩
  · rintro ⟨rfl, rfl⟩
    rw [hat] at hx
    cases hx
    exact ⟨rfl, rfl⟩

/-- A new node is at the new path only. -/
theorem Realizes.insert_inj (h : Realizes t v m) (hcs : cs ≠ []) {qs qs' : List (List Byte)} {x : Nat}
    (hx : (m.insert cs v.count mode).nodeAt t qs = some x) (hx' : (m.insert cs v.count mode).nodeAt t qs' = some x) :
    qs = qs' := by
  rw [PathMap.nodeAt_insert hcs] at hx hx'
  split at hx
  case isTrue hq =>
    split at hx'
    case isTrue hq' => rw [hq, hq']
    case isFalse =>
      cases hx
      exact absurd (h.reduced hx').lt (Nat.lt_irrefl _)
  case isFalse =>
    split at hx'
    case isTrue =>
      cases hx'
      exact absurd (h.reduced hx).lt (Nat.lt_irrefl _)
    case isFalse => exact h.inj hx hx'

/-- Paths that had a node keep it. -/
theorem PathMap.nodeAt_insert_old {qs : List (List Byte)} {x : Nat} (hcs : cs ≠ []) (hno : m.nodeAt t cs = none)
    (hx : m.nodeAt t qs = some x) : (m.insert cs n mode).nodeAt t qs = some x := by
  rw [nodeAt_insert hcs, if_neg, hx]
  rintro rfl
  rw [hno] at hx
  cases hx

/-- Creation below a directory of the map adds one entry to it. -/
theorem Realizes.grows (h : Realizes t v m) (hg : Grows v v' y c mode) (htree : TreeInv none v')
    (hat : m.nodeAt t cs = some y) (hy : (v.node y).children.isSome)
    (hno : m.nodeAt t (cs ++ [c]) = none) :
    Realizes t v' (m.insert (cs ++ [c]) v.count mode) := by
  have hne : cs ++ [c] ≠ [] := List.concat_ne_nil _ _
  have hins : ∀ qs, (m.insert (cs ++ [c]) v.count mode).nodeAt t qs =
      if qs = cs ++ [c] then some v.count else m.nodeAt t qs := fun _ => PathMap.nodeAt_insert hne
  -- Nodes of the old map are older than the new one.
  have hlt : ∀ {qs x}, m.nodeAt t qs = some x → x < v.count := fun hx => (h.reduced hx).lt
  have htop : t < v.count := hlt PathMap.nodeAt_nil
  constructor
  · exact htree
  · obtain ⟨r, hr, hm⟩ := h.root
    refine ⟨r, by rw [hg.root, hr], ?_⟩
    obtain ⟨ch, hnode, _⟩ := hg.old (h.tree.root_lt hr)
    rw [hnode]
    exact hm
  · intro qs x hx
    rw [hins] at hx
    split at hx
    · cases hx
      exact hg.fresh
    · exact hg.reduced (h.reduced hx)
  · rw [hg.isSome htop]
    exact h.top
  · intro qs e he
    by_cases hq : qs = cs ++ [c]
    · rw [PathMap.insert, hq, Function.update_self] at he
      cases he
      exact hg.dir
    · rw [PathMap.insert, Function.update_of_ne hq] at he
      rw [hg.isSome (h.node_lt he)]
      exact h.dir he
  · intro qs x ch d hx hch hd
    rw [hins] at hx ⊢
    split at hx
    · rename_i hq
      cases hx
      subst hq
      rw [hg.empty hch hd.ne_dot hd.ne_dotdot, if_neg (by simp)]
      exact (h.missing_below hno).symm
    · obtain ⟨c₀, hc₀, hall⟩ := hg.get (hlt hx) hch
      rw [hall, h.child hx hc₀ hd]
      simp only [h.below_iff hat hx]
  · intro qs d e he
    have hold : ∀ {x}, m.nodeAt t qs = some x → (v.node x).children.isSome →
        ∃ n, (m.insert (cs ++ [c]) v.count mode).nodeAt t qs = some n ∧ (v'.node n).children.isSome := by
      intro x hx hsome
      refine ⟨x, PathMap.nodeAt_insert_old hne hno hx, ?_⟩
      rw [hg.isSome (hlt hx)]
      exact hsome
    by_cases hq : qs ++ [d] = cs ++ [c]
    · obtain ⟨rfl, rfl⟩ := List.append_singleton_inj.mp hq
      exact hold hat hy
    · rw [PathMap.insert, Function.update_of_ne hq] at he
      obtain ⟨x, hx, hsome⟩ := h.parent he
      exact hold hx hsome
  · rw [PathMap.insert, Function.update_of_ne hne.symm]
    exact h.nil
  · exact h.insert_inj hne

/-- `vfs_create` from the root, for a spelled path. -/
theorem Realizes.vfsCreate (h : Realizes t v m) (hs : Spells path cs) (hfile : m.NoFileBelow cs)
    (mode : Nat) :
    (¬ m.CanCreate cs ∧ vfsCreate v v.root path mode = some (none, v)) ∨
    (m.CanCreate cs ∧ ∃ v' p k, vfsCreate v v.root path mode = some (some v.count, v') ∧
      Grows v v' p k mode ∧ Realizes t v' (m.insert cs v.count mode)) := by
  obtain ⟨r, hr, hend⟩ := h.pathToNode hs hfile
  cases hend with
  | @found _ p x hat hp =>
      refine .inl ⟨fun hcan => ?_, ?_⟩
      · rw [PathMap.nodeAt_of_ne hs.ne_nil, hcan.1] at hat
        cases hat
      · simp only [Fs.vfsCreate, hr, Option.bind_eq_bind, Option.bind_some]
        rfl
  | @missing cs c y hno hat hy =>
      have hlt := (h.reduced hat).lt
      obtain ⟨ch, hch⟩ := Option.isSome_iff_exists.mp hy
      obtain ⟨v', hcreate, hcreates⟩ :=
        @vfsCreate_creates v y mode v.root path ch hr hlt hch (h.tree.fs hlt hy)
      have htree := h.tree.vfsCreate (fun _ => h.tree.root_lt) hs.str hcreate
      rw [hs.basename] at hcreates
      refine .inr ⟨⟨?_, ?_⟩, v', y, c, hcreate, hcreates.grows, h.grows hcreates.grows htree hat hy hno⟩
      · rwa [PathMap.nodeAt_snoc, Option.map_eq_none_iff] at hno
      · rw [List.dropLast_concat]
        by_cases hnil : cs = []
        · exact .inl hnil
        · rw [PathMap.nodeAt_of_ne hnil] at hat
          obtain ⟨e, he, rfl⟩ := Option.map_eq_some_iff.mp hat
          exact .inr ⟨e, he, by rw [← h.dir he, hy]⟩
  | @lost cs c hno hat =>
      refine .inl ⟨?_, ?_⟩
      · rintro ⟨_, hpar⟩
        rw [List.dropLast_concat] at hpar
        rcases hpar with rfl | ⟨e, he, _⟩
        · cases hat
        · have hne : cs ≠ [] := by
            rintro rfl
            cases hat
          rw [PathMap.nodeAt_of_ne hne, he] at hat
          cases hat
      · simp only [Fs.vfsCreate, hr, Option.bind_eq_bind, Option.bind_some]
        rfl

end Create

/-! ### Runs -/

/-- The tree and the record of what was created, after `vfs_init` and calls of
`vfs_create` from the root. -/
inductive CreateRun : Vfs → PathMap → Prop
  | init {heap : Nat → Mem} {v : Vfs} (h : vfsInit heap = some v) : CreateRun v fun _ => none
  | created {v v' : Vfs} {m : PathMap} {path : List Byte} {cs : List (List Byte)} {mode n : Nat}
      (hrun : CreateRun v m) (hs : Spells path cs) (hfile : m.NoFileBelow cs)
      (hmode : mode = sIfreg ∨ mode = sIfdir)
      (h : vfsCreate v v.root path mode = some (some n, v')) : CreateRun v' (m.insert cs n mode)
  | failed {v v' : Vfs} {m : PathMap} {path : List Byte} {cs : List (List Byte)} {mode : Nat}
      (hrun : CreateRun v m) (hs : Spells path cs) (hfile : m.NoFileBelow cs)
      (hmode : mode = sIfreg ∨ mode = sIfdir)
      (h : vfsCreate v v.root path mode = some (none, v')) : CreateRun v' m

/-- The empty tree: the root, the directory mounted on it and its two links. -/
theorem realizes_init {heap : Nat → Mem} {v : Vfs} (h : Mounts (rootOnly heap) v 0 0 [slash]) :
    Realizes 1 v fun _ => none := by
  have htree := treeInv_init h
  obtain ⟨v₁, new, hadds, hnew, hdotted⟩ := h
  obtain ⟨c, c', hc, hdir, hget⟩ := hdotted.dir
  have hcount : v₁.count = 2 := hadds.count
  have hnode : ∀ f, (v₁.modify 0 f).node 1 = new := fun f => by
    rw [v₁.modify_of_ne (by decide)]
    exact hadds.node
  have hzero := hdotted.others 0 (by show 0 < v₁.count; omega) Nat.zero_ne_one
  have hone : v.node 1 = { new with children := some c' } := by
    rw [← hnode]
    exact hdir
  constructor
  · exact htree
  · refine ⟨0, hdotted.root.trans hadds.root, ?_⟩
    rw [hzero, Vfs.modify_self]
    rfl
  · intro cs n hn
    obtain ⟨-, rfl⟩ := PathMap.nodeAt_none hn
    refine ⟨?_, ?_, ?_⟩
    · rw [hdotted.count]
      show 1 < v₁.count + 2
      omega
    · rw [hone]
      exact hnew.mountpoint
    · rw [hone]
      exact hnew.link
  · rw [hone]
    rfl
  · rintro cs e ⟨⟩
  · intro cs n h d hn hh hd
    obtain ⟨rfl, rfl⟩ := PathMap.nodeAt_none hn
    rw [hone] at hh
    cases hh
    have hempty : c = hashmapCreate 256 := by
      have hc₁ : new.children = some c := by
        rw [← hnode]
        exact hc
      rw [hnew.children] at hc₁
      exact (Option.some.inj hc₁).symm
    rw [hget, if_neg hd.ne_dotdot, if_neg hd.ne_dot, hempty, hashmapGet_create]
    rfl
  · rintro cs c e ⟨⟩
  · rfl
  · intro cs cs' n h h'
    rw [(PathMap.nodeAt_none h).1, (PathMap.nodeAt_none h').1]

theorem CreateRun.realizes {v : Vfs} {m : PathMap} (h : CreateRun v m) : Realizes 1 v m := by
  induction h with
  | init h =>
      obtain ⟨v, hv, hmounts⟩ := vfsInit_mounts
      rw [hv] at h
      cases h
      exact realizes_init hmounts
  | created _ hs hfile _ h ih =>
      rcases ih.vfsCreate hs hfile _ with ⟨_, hnone⟩ | ⟨_, v', p, k, hsome, _, hreal⟩
      · rw [hnone] at h
        cases h
      · rw [hsome] at h
        cases h
        exact hreal
  | failed _ hs hfile _ h ih =>
      rcases ih.vfsCreate hs hfile _ with ⟨_, hnone⟩ | ⟨_, v', p, k, hsome, _, hreal⟩
      · rw [hnone] at h
        cases h
        exact ih
      · rw [hsome] at h
        cases h

/-- The tree refines the map: every call returns, succeeds exactly when the map
allows it and otherwise changes nothing, and `get_node` reads the map. -/
theorem tree_refines_path_map {v : Vfs} {m : PathMap} (h : CreateRun v m) :
    (∀ path cs mode, Spells path cs → m.NoFileBelow cs → mode = sIfreg ∨ mode = sIfdir →
      ∃ r v', vfsCreate v v.root path mode = some (r, v') ∧ (r.isSome ↔ m.CanCreate cs) ∧
        (r = none → v' = v)) ∧
    (∀ q qs, Spells q qs → m.NoFileBelow qs → getNode v v.root q = some ((m qs).map Named.node)) ∧
    ∀ qs qs' e e', m qs = some e → m qs' = some e' → qs ≠ qs' → e.node ≠ e'.node := by
  have hreal := h.realizes
  refine ⟨?_, ?_, ?_⟩
  · intro path cs mode hs hfile _
    rcases hreal.vfsCreate hs hfile mode with ⟨hno, hnone⟩ | ⟨hcan, v', p, k, hsome, _⟩
    · exact ⟨none, v, hnone, by simpa using hno, fun _ => rfl⟩
    · exact ⟨_, v', hsome, by simpa using hcan, by rintro ⟨⟩⟩
  · intro q qs hs hfile
    exact hreal.getNode hs hfile
  · intro qs qs' e e' he he' hne heq
    exact hne (hreal.inj (hreal.nodeAt he) (by rw [hreal.nodeAt he', heq]))

def mapA : PathMap := PathMap.insert (fun _ => none) [pathA] 4 sIfdir

theorem component_pathA : Component pathA := ⟨by decide, by decide, by decide, by decide, by decide⟩

theorem spells_pathA (lead trail : Bool) : Spells (spell lead trail [pathA]) [pathA] := by
  refine ⟨by decide, ?_, lead, trail, rfl⟩
  rintro c (_ | ⟨_, h⟩)
  · exact component_pathA
  · exact (List.not_mem_nil h).elim

theorem createRun_treeA : CreateRun treeA mapA := by
  have hinit : CreateRun initTree fun _ => none :=
    .init (show vfsInit (fun _ _ => 0) = some initTree from rfl)
  refine hinit.created (spells_pathA false false) ?_ (.inr rfl)
    (show vfsCreate initTree (some 0) pathA sIfdir = some (some 4, treeA) from rfl)
  rintro pre c rest _ e ⟨⟩

theorem noFileBelow_pathA : mapA.NoFileBelow [pathA] := by
  intro pre c rest heq e he
  rcases pre with _ | ⟨d, pre⟩
  · cases he
  · rw [List.cons_append, List.cons.injEq] at heq
    simp at heq

/-- The directory "a" is found as "/a/" and cannot be created again. -/
theorem directory_a_refines : CreateRun treeA mapA ∧
    getNode treeA treeA.root (spell true true [pathA]) = some (some 4) ∧
    ∃ v', vfsCreate treeA treeA.root (spell true false [pathA]) sIfreg = some (none, v') ∧ v' = treeA := by
  obtain ⟨hcreate, hget, -⟩ := tree_refines_path_map createRun_treeA
  refine ⟨createRun_treeA, hget _ _ (spells_pathA true true) noFileBelow_pathA, ?_⟩
  obtain ⟨r, v', hr, hiff, hsame⟩ :=
    hcreate _ _ sIfreg (spells_pathA true false) noFileBelow_pathA (.inl rfl)
  cases r with
  | none => exact ⟨v', hr, hsame rfl⟩
  | some n =>
      have hcan := (hiff.mp rfl).1
      cases hcan

end Flan.Fs
