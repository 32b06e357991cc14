import Flan.Fs.Vfs

/-! What creating nodes does to a tree of `fs/vfs.c`, and the invariant that it
keeps. -/
namespace Flan.Fs
open Flan.Lib Flan.Memory

/-! ### What the operations change -/

/-- A node was added as a child of `p`. -/
structure Adds (v v' : Vfs) (p : Nat) (k : List Byte) (new : VfsNode) : Prop where
  count : v'.count = v.count + 1
  root : v'.root = v.root
  filesystems : v'.filesystems = v.filesystems
  node : v'.node v.count = new
  parent : ∃ c, (v.node p).children = some c ∧
    v'.node p = { v.node p with children := some (hashmapSet c k v.count) }
  others : ∀ x, x ≠ v.count → x ≠ p → v'.node x = v.node x

/-- The entries "." and ".." were added to the directory `n`. -/
structure Dotted (v v' : Vfs) (parent n : Nat) : Prop where
  count : v'.count = v.count + 2
  root : v'.root = v.root
  filesystems : v'.filesystems = v.filesystems
  dir : ∃ c c', (v.node n).children = some c ∧ v'.node n = { v.node n with children := some c' } ∧
    ∀ k, hashmapGet c' k =
      if k = dotdot then some (v.count + 1) else if k = dot then some v.count else hashmapGet c k
  self : v'.node v.count = { newNode dot (some n) (v.node n).fs false with link := some n }
  up : v'.node (v.count + 1) =
    { newNode dot (some n) (v.node n).fs false with link := some parent }
  others : ∀ x, x < v.count → x ≠ n → v'.node x = v.node x

/-- What a new node of tmpfs looks like. -/
structure NewTmpfs (mode : Nat) (new : VfsNode) : Prop where
  children : new.children = if sIsDir mode then some (hashmapCreate 256) else none
  fs : new.fs = some .tmpfs
  mountpoint : new.mountpoint = none
  link : new.link = none
  file : sIsReg mode = true → FileInv [] new
  stMode : new.st.mode = mode

section Effects
variable {v v' : Vfs} {p n parent : Nat} {c : Hashmap Nat} {name : List Byte} {fs : Option FsKind}
  {mode : Nat}

theorem vfsCreateNode_adds (hp : p < v.count) (hc : (v.node p).children = some c) (dir : Bool) :
    ∃ v', vfsCreateNode v (some p) name fs dir = some (v.count, v') ∧
      Adds v v' p name (newNode name (some p) fs dir) := by
  have hne : p ≠ v.count := Nat.ne_of_lt hp
  refine ⟨{ v with
      node := Function.update (Function.update v.node v.count (newNode name (some p) fs dir)) p
        { v.node p with children := some (hashmapSet c name v.count) }
      count := v.count + 1 }, ?_, ⟨rfl, rfl, rfl, ?_, ⟨c, hc, ?_⟩, ?_⟩⟩
  · simp [vfsCreateNode, Vfs.setChild, Vfs.modify, Function.update_of_ne hne, hc]
  · simp only [Function.update_of_ne hne.symm, Function.update_self]
  · simp only [Function.update_self]
  · intro x hx hxp
    simp only [Function.update_of_ne hx, Function.update_of_ne hxp]

theorem vfsCreateNode_null (hp : p < v.count) (hc : (v.node p).children = none) (dir : Bool) :
    vfsCreateNode v (some p) name fs dir = none := by
  have hne : p ≠ v.count := Nat.ne_of_lt hp
  simp [vfsCreateNode, Vfs.setChild, Function.update_of_ne hne, hc]

/-- A change to the added node itself. -/
theorem Adds.modify {new : VfsNode} (h : Adds v v' p name new) (hp : p < v.count)
    (f : VfsNode → VfsNode) : Adds v (v'.modify v.count f) p name (f new) := by
  obtain ⟨c, hc, hpar⟩ := h.parent
  have hne : p ≠ v.count := Nat.ne_of_lt hp
  refine ⟨h.count, h.root, h.filesystems, ?_, ⟨c, hc, ?_⟩, ?_⟩
  · simp only [Vfs.modify, Function.update_self, h.node]
  · simpa only [Vfs.modify, Function.update_of_ne hne] using hpar
  · intro x hx hxp
    simpa only [Vfs.modify, Function.update_of_ne hx] using h.others x hx hxp

theorem Adds.same {new : VfsNode} {w : Vfs} (h : Adds v v' p name new) (hn : w.node = v'.node)
    (hc : w.count = v'.count) (hr : w.root = v'.root) (hf : w.filesystems = v'.filesystems) :
    Adds v w p name new := by
  constructor
  · rw [hc, h.count]
  · rw [hr, h.root]
  · rw [hf, h.filesystems]
  · rw [hn, h.node]
  · rw [hn]
    exact h.parent
  · rw [hn]
    exact h.others

theorem newTmpfs_init (m : Mem) (ino : Nat) : NewTmpfs mode
    ((newNode name (some p) (some .tmpfs) (sIsDir mode)).initTmpfs mode m ino) :=
  ⟨rfl, rfl, rfl, rfl, fun hm => fileInv_init hm m ino rfl, rfl⟩

theorem tmpfsCreate_adds (hp : p < v.count) (hc : (v.node p).children = some c) :
    ∃ v' new, tmpfsCreate v (some p) name mode = some (v.count, v') ∧ Adds v v' p name new ∧
      NewTmpfs mode new := by
  obtain ⟨v₁, hnew, hadds⟩ := @vfsCreateNode_adds v p c name (some .tmpfs) hp hc (sIsDir mode)
  have hcreate : tmpfsCreate v (some p) name mode = some (v.count,
      { v₁.modify v.count (VfsNode.initTmpfs mode (v₁.heap v₁.buffers) v₁.inodeNumber) with
        inodeNumber := v₁.inodeNumber + 1
        buffers := if sIsReg mode then v₁.buffers + 1 else v₁.buffers }) := by
    simp only [tmpfsCreate, hnew, Option.bind_eq_bind, Option.bind_some]
    rfl
  exact ⟨_, _, hcreate, (hadds.modify hp _).same rfl rfl rfl rfl, newTmpfs_init _ _⟩

theorem tmpfsCreate_null (hp : p < v.count) (hc : (v.node p).children = none) :
    tmpfsCreate v (some p) name mode = none := by
  simp [tmpfsCreate, vfsCreateNode_null hp hc]

theorem setChild_eq (hc : (v.node n).children = some c) (k : List Byte) (m : Nat) :
    v.setChild n k m = some (v.modify n fun node => { node with children := some (hashmapSet c k m) }) := by
  simp only [Vfs.setChild, hc]
  rfl

/-- Two `hashmap_set` calls on the children of a directory. -/
theorem setChild_twice (hc : (v.node n).children = some c) (k k' : List Byte) (m m' : Nat) :
    (v.setChild n k m).bind (fun v => v.setChild n k' m') =
      some (v.modify n fun node => { node with children := some (hashmapSet (hashmapSet c k m) k' m') }) := by
  have hc' : ((v.modify n fun node => { node with children := some (hashmapSet c k m) }).node n).children =
      some (hashmapSet c k m) := by simp only [Vfs.modify, Function.update_self]
  rw [setChild_eq hc, Option.bind_some, setChild_eq hc']
  simp only [Vfs.modify, Function.update_self, Function.update_idem]

/-- `create_dot` on a directory. -/
theorem createDot_dotted (hn : n < v.count) (hc : (v.node n).children = some c) (parent : Nat) :
    ∃ v', createDot v parent n = some v' ∧ Dotted v v' parent n := by
  obtain ⟨v₁, h₁, ha₁⟩ := @vfsCreateNode_adds v n c dot (v.node n).fs hn hc false
  obtain ⟨c₁, hc₁, hp₁⟩ := ha₁.parent
  have hn₁ : n < v₁.count := by rw [ha₁.count]; omega
  have hch₁ : (v₁.node n).children = some (hashmapSet c₁ dot v.count) := by rw [hp₁]
  obtain ⟨v₂, h₂, ha₂⟩ := @vfsCreateNode_adds v₁ n _ dot (v.node n).fs hn₁ hch₁ false
  obtain ⟨c₂, hc₂, hp₂⟩ := ha₂.parent
  rw [hch₁, Option.some.injEq] at hc₂
  rw [ha₁.count] at h₂ hp₂
  have hd : n ≠ v.count := by omega
  have hdd : n ≠ v.count + 1 := by omega
  let v₃ := (v₂.setLink v.count n).setLink (v.count + 1) parent
  have hnode : v₃.node n = v₂.node n := by
    simp only [v₃, Vfs.setLink, Vfs.modify, Function.update_of_ne hd, Function.update_of_ne hdd]
  have hch₃ : (v₃.node n).children = some (hashmapSet c₂ dot (v.count + 1)) := by rw [hnode, hp₂]
  have hsets := setChild_twice hch₃ dot dotdot v.count (v.count + 1)
  let c₃ := hashmapSet (hashmapSet (hashmapSet c₂ dot (v.count + 1)) dot v.count) dotdot (v.count + 1)
  refine ⟨v₃.modify n fun node => { node with children := some c₃ }, ?_, ?_⟩
  · simp only [createDot, h₁, h₂, Option.bind_eq_bind, Option.bind_some]
    exact hsets
  · constructor
    · show v₂.count = _
      rw [ha₂.count, ha₁.count]
    · show v₂.root = _
      rw [ha₂.root, ha₁.root]
    · show v₂.filesystems = _
      rw [ha₂.filesystems, ha₁.filesystems]
    · refine ⟨c₁, c₃, hc₁, ?_, ?_⟩
      · simp only [Vfs.modify, Function.update_self, hnode, hp₂, hp₁]
      · intro k
        simp only [c₃, ← hc₂, hashmapGet_set]
        split_ifs <;> rfl
    · have hne : v.count ≠ v.count + 1 := by omega
      have hk := ha₂.others v.count (by rw [ha₁.count]; omega) hd.symm
      simp only [Vfs.modify, v₃, Vfs.setLink, Function.update_of_ne hd.symm, Function.update_of_ne hne,
        Function.update_self, hk, ha₁.node]
    · have hk := ha₂.node
      rw [ha₁.count] at hk
      simp only [Vfs.modify, v₃, Vfs.setLink, Function.update_of_ne hdd.symm, Function.update_self]
      rw [Function.update_of_ne (by omega), hk]
    · intro x hx hxn
      have hk₂ := ha₂.others x (by rw [ha₁.count]; omega) hxn
      have hk₁ := ha₁.others x (by omega) hxn
      simp only [Vfs.modify, v₃, Vfs.setLink, Function.update_of_ne hxn]
      rw [Function.update_of_ne (by omega), Function.update_of_ne (by omega), hk₂, hk₁]

end Effects

/-! ### The invariant -/

/-- The root is mounted on, mounts lead to younger directories, links end at a
node that is no link, and every directory has an entry "." except the root
itself and possibly one that has just been made. -/
structure TreeInv (bare : Option Nat) (v : Vfs) : Prop where
  root : ∃ r, v.root = some r ∧ r < v.count ∧ (v.node r).mountpoint.isSome
  child : ∀ {n m : Nat} {c : Hashmap Nat} {k : List Byte}, n < v.count →
    (v.node n).children = some c → hashmapGet c k = some m → m < v.count ∧ v.root ≠ some m ∧ k ≠ []
  mount : ∀ {n m : Nat}, n < v.count → (v.node n).mountpoint = some m →
    n < m ∧ m < v.count ∧ (v.node n).children.isSome ∧ (v.node m).children.isSome
  link : ∀ {n l : Nat}, n < v.count → (v.node n).link = some l →
    l < v.count ∧ (v.node n).children = none ∧ (v.node l).link = none
  self : ∀ {n : Nat} {c : Hashmap Nat}, n < v.count → v.root ≠ some n → bare ≠ some n →
    (v.node n).children = some c → ∃ d, hashmapGet c dot = some d ∧ (v.node d).link = some n
  fs : ∀ {n : Nat}, n < v.count → (v.node n).children.isSome → (v.node n).fs = some .tmpfs

/-- The same directories, mounts and links. -/
structure SameTree (v v' : Vfs) : Prop where
  count : v'.count = v.count
  root : v'.root = v.root
  children : ∀ x, (v'.node x).children = (v.node x).children
  mountpoint : ∀ x, (v'.node x).mountpoint = (v.node x).mountpoint
  link : ∀ x, (v'.node x).link = (v.node x).link
  fs : ∀ x, (v'.node x).fs = (v.node x).fs

section Inv
variable {v v' : Vfs} {p n parent : Nat} {k : List Byte} {mode : Nat} {new : VfsNode}

theorem sameTree_modify {data : Option Mem} {st : Stat} {node : VfsNode}
    (h : node = { v.node n with data, st }) : SameTree v (v.modify n fun _ => node) := by
  have hnode : ∀ x, ∃ data st, (v.modify n fun _ => node).node x = { v.node x with data, st } := by
    intro x
    by_cases hx : x = n
    · subst hx
      exact ⟨data, st, (v.modify_self x _).trans h⟩
    · exact ⟨_, _, v.modify_of_ne hx _⟩
  refine ⟨rfl, rfl, ?_, ?_, ?_, ?_⟩ <;>
  · intro x
    obtain ⟨data, st, hx⟩ := hnode x
    rw [hx]

theorem SameTree.tree (hs : SameTree v v') (h : TreeInv none v) : TreeInv none v' := by
  constructor <;> simp only [hs.count, hs.root, hs.children, hs.mountpoint, hs.link, hs.fs]
  · exact h.root
  · exact h.child
  · exact h.mount
  · exact h.link
  · exact h.self
  · exact h.fs

theorem TreeInv.no_link {bare : Option Nat} (hi : TreeInv bare v) (hn : n < v.count)
    (hc : (v.node n).children.isSome) : (v.node n).link = none := by
  cases hl : (v.node n).link with
  | none => rfl
  | some l =>
      have := (hi.link hn hl).2.1
      rw [this] at hc
      cases hc

/-- Nodes have been added; of the old ones at most the children are others. -/
structure OldKept (v v' : Vfs) : Prop where
  count : v.count ≤ v'.count
  root : v'.root = v.root
  node : ∀ {x : Nat}, x < v.count → ∃ ch, v'.node x = { v.node x with children := ch } ∧
    ch.isSome = (v.node x).children.isSome

theorem OldKept.mountpoint (h : OldKept v v') {x : Nat} (hx : x < v.count) :
    (v'.node x).mountpoint = (v.node x).mountpoint := by
  obtain ⟨ch, heq, -⟩ := h.node hx
  rw [heq]

theorem OldKept.link (h : OldKept v v') {x : Nat} (hx : x < v.count) :
    (v'.node x).link = (v.node x).link := by
  obtain ⟨ch, heq, -⟩ := h.node hx
  rw [heq]

theorem OldKept.fs (h : OldKept v v') {x : Nat} (hx : x < v.count) : (v'.node x).fs = (v.node x).fs := by
  obtain ⟨ch, heq, -⟩ := h.node hx
  rw [heq]

theorem OldKept.children (h : OldKept v v') {x : Nat} (hx : x < v.count) :
    (v'.node x).children.isSome = (v.node x).children.isSome := by
  obtain ⟨ch, heq, hch⟩ := h.node hx
  rw [heq]
  exact hch

section Old
variable {bare : Option Nat} {x m l : Nat} (h : OldKept v v') (hi : TreeInv bare v)
include h hi

theorem OldKept.root_mounted : ∃ r, v'.root = some r ∧ r < v'.count ∧ (v'.node r).mountpoint.isSome := by
  obtain ⟨r, hr, hlt, hm⟩ := hi.root
  refine ⟨r, h.root.trans hr, hlt.trans_le h.count, ?_⟩
  rw [h.mountpoint hlt]
  exact hm

theorem OldKept.mount (hx : x < v.count) (hm : (v'.node x).mountpoint = some m) :
    x < m ∧ m < v'.count ∧ (v'.node x).children.isSome ∧ (v'.node m).children.isSome := by
  rw [h.mountpoint hx] at hm
  obtain ⟨hlt, hcount, hxc, hmc⟩ := hi.mount hx hm
  exact ⟨hlt, hcount.trans_le h.count, (h.children hx).trans hxc, (h.children hcount).trans hmc⟩

theorem OldKept.linked (hx : x < v.count) (hl : (v'.node x).link = some l) :
    l < v'.count ∧ (v'.node x).children = none ∧ (v'.node l).link = none := by
  rw [h.link hx] at hl
  obtain ⟨hcount, hxc, hll⟩ := hi.link hx hl
  refine ⟨hcount.trans_le h.count, ?_, (h.link hcount).trans hll⟩
  rw [← Option.not_isSome_iff_eq_none, h.children hx, hxc]
  exact Bool.false_ne_true

theorem OldKept.tmpfs (hx : x < v.count) (hc : (v'.node x).children.isSome) : (v'.node x).fs = some .tmpfs :=
  (h.fs hx).trans (hi.fs hx ((h.children hx).symm.trans hc))

end Old

theorem Adds.old (h : Adds v v' p k new) : OldKept v v' := by
  obtain ⟨c, hc, hp⟩ := h.parent
  refine ⟨by rw [h.count]; exact Nat.le_succ _, h.root, fun {x} hx => ?_⟩
  by_cases hxp : x = p
  · subst hxp
    exact ⟨_, hp, by rw [hc]; rfl⟩
  · exact ⟨_, h.others x (Nat.ne_of_lt hx) hxp, rfl⟩

theorem Dotted.old (h : Dotted v v' parent n) : OldKept v v' := by
  obtain ⟨c, c', hc, hdir, -⟩ := h.dir
  refine ⟨by rw [h.count]; omega, h.root, fun {x} hx => ?_⟩
  by_cases hxn : x = n
  · subst hxn
    exact ⟨_, hdir, by rw [hc]; rfl⟩
  · exact ⟨_, h.others x hx hxn, rfl⟩

/-- The children of the other nodes. -/
theorem Adds.get (h : Adds v v' p k new) {x : Nat} {c' : Hashmap Nat} (hx : x < v.count)
    (hc' : (v'.node x).children = some c') : ∃ c, (v.node x).children = some c ∧
      ∀ key, hashmapGet c' key = if x = p ∧ key = k then some v.count else hashmapGet c key := by
  obtain ⟨c, hc, hp⟩ := h.parent
  by_cases hxp : x = p
  · subst hxp
    rw [hp] at hc'
    cases hc'
    refine ⟨c, hc, fun key => ?_⟩
    rw [hashmapGet_set]
    by_cases hk : key = k
    · rw [if_pos hk, if_pos ⟨rfl, hk⟩]
    · rw [if_neg hk, if_neg fun h => hk h.2]
  · rw [h.others x (Nat.ne_of_lt hx) hxp] at hc'
    exact ⟨c', hc', fun key => (if_neg fun h => hxp h.1).symm⟩

theorem TreeInv.adds (hi : TreeInv none v) (h : Adds v v' p k new) (hnew : NewTmpfs mode new)
    (hk : k ≠ []) (hdot : k ≠ dot) :
    TreeInv (if sIsDir mode then some v.count else none) v' := by
  have hcount := h.count
  have hlt : ∀ {x}, x < v'.count → x < v.count ∨ x = v.count := fun hx => by omega
  obtain ⟨r, hr, hrlt, -⟩ := hi.root
  constructor
  · exact h.old.root_mounted hi
  · intro n m c key hn hc hget
    rw [h.root]
    rcases hlt hn with hn | rfl
    · obtain ⟨c₀, hc₀, hall⟩ := h.get hn hc
      rw [hall] at hget
      split at hget
      · cases hget
        rename_i heq
        refine ⟨by omega, ?_, by rw [heq.2]; exact hk⟩
        rw [hr]
        intro he
        cases he
        omega
      · have := hi.child hn hc₀ hget
        exact ⟨by omega, this.2⟩
    · rw [h.node, hnew.children] at hc
      split at hc
      · cases hc
        rw [hashmapGet_create] at hget
        cases hget
      · cases hc
  · intro n m hn hm
    rcases hlt hn with hn | rfl
    · exact h.old.mount hi hn hm
    · rw [h.node, hnew.mountpoint] at hm
      cases hm
  · intro n l hn hl
    rcases hlt hn with hn | rfl
    · exact h.old.linked hi hn hl
    · rw [h.node, hnew.link] at hl
      cases hl
  · intro n c hn hroot hbare hc
    rw [h.root] at hroot
    rcases hlt hn with hn | rfl
    · obtain ⟨c₀, hc₀, hall⟩ := h.get hn hc
      obtain ⟨d, hd, hlink⟩ := hi.self hn hroot (by simp) hc₀
      refine ⟨d, ?_, ?_⟩
      · rw [hall, if_neg (fun h => hdot h.2.symm), hd]
      · rw [h.old.link (hi.child hn hc₀ hd).1, hlink]
    · rw [h.node, hnew.children] at hc
      split at hc
      · rename_i hdir
        rw [if_pos hdir] at hbare
        exact absurd rfl hbare
      · cases hc
  · intro n hn hc
    rcases hlt hn with hn | rfl
    · exact h.old.tmpfs hi hn hc
    · rw [h.node]
      exact hnew.fs

/-- The two new nodes are links: no directories, and nothing is mounted on them. -/
theorem Dotted.old_or_link (h : Dotted v v' parent n) {x : Nat} (hx : x < v'.count) :
    x < v.count ∨ (v'.node x).children = none ∧ (v'.node x).mountpoint = none := by
  have hcount := h.count
  rcases (show x < v.count ∨ x = v.count ∨ x = v.count + 1 by omega) with hx | rfl | rfl
  · exact .inl hx
  · rw [h.self]
    exact .inr ⟨rfl, rfl⟩
  · rw [h.up]
    exact .inr ⟨rfl, rfl⟩

theorem Dotted.old_of_children (h : Dotted v v' parent n) {x : Nat} (hx : x < v'.count)
    (hc : (v'.node x).children.isSome) : x < v.count := by
  rcases h.old_or_link hx with hold | ⟨hnone, -⟩
  · exact hold
  · rw [hnone] at hc
    cases hc

/-- What an old directory holds: the two links were added to `n`, and nothing else. -/
theorem Dotted.get (h : Dotted v v' parent n) {x : Nat} {c' : Hashmap Nat} (hx : x < v.count)
    (hc' : (v'.node x).children = some c') : ∃ c, (v.node x).children = some c ∧
      ∀ k, hashmapGet c' k = if x = n ∧ k = dotdot then some (v.count + 1)
        else if x = n ∧ k = dot then some v.count else hashmapGet c k := by
  by_cases hxn : x = n
  · subst hxn
    obtain ⟨c, c₁, hc, hdir, hget⟩ := h.dir
    rw [hdir] at hc'
    cases hc'
    refine ⟨c, hc, fun k => ?_⟩
    simp only [hget, true_and]
  · rw [h.others x hx hxn] at hc'
    refine ⟨c', hc', fun k => ?_⟩
    rw [if_neg fun hk => hxn hk.1, if_neg fun hk => hxn hk.1]

theorem TreeInv.dotted (hi : TreeInv (some n) v) (h : Dotted v v' parent n) (hn : n < v.count)
    (hp : parent < v.count) (hpl : (v.node parent).link = none) : TreeInv none v' := by
  have hcount := h.count
  obtain ⟨c, -, hc, -⟩ := h.dir
  obtain ⟨r, hr, hrlt, -⟩ := hi.root
  constructor
  · exact h.old.root_mounted hi
  · intro x m cx key hx hcx hm
    rw [h.root]
    have hfresh : v.root ≠ some v.count ∧ v.root ≠ some (v.count + 1) := by
      rw [hr]
      constructor <;> intro he <;> cases he <;> omega
    have hx := h.old_of_children hx (by rw [hcx]; rfl)
    obtain ⟨c₀, hc₀, hall⟩ := h.get hx hcx
    rw [hall] at hm
    split at hm
    · rename_i hk
      cases hm
      exact ⟨by omega, hfresh.2, by rw [hk.2]; decide⟩
    · split at hm
      · rename_i hk
        cases hm
        exact ⟨by omega, hfresh.1, by rw [hk.2]; decide⟩
      · obtain ⟨hlt, hrest⟩ := hi.child hx hc₀ hm
        exact ⟨by omega, hrest⟩
  · intro x m hx hm
    rcases h.old_or_link hx with hx | ⟨-, hnone⟩
    · exact h.old.mount hi hx hm
    · rw [hnone] at hm
      cases hm
  · intro x l hx hl
    rcases (show x < v.count ∨ x = v.count ∨ x = v.count + 1 by omega) with hx | rfl | rfl
    · exact h.old.linked hi hx hl
    · rw [h.self] at hl ⊢
      cases hl
      refine ⟨by omega, rfl, ?_⟩
      rw [h.old.link hn]
      exact hi.no_link hn (by rw [hc]; rfl)
    · rw [h.up] at hl ⊢
      cases hl
      exact ⟨by omega, rfl, by rw [h.old.link hp, hpl]⟩
  · intro x cx hx hroot _ hcx
    rw [h.root] at hroot
    have hx := h.old_of_children hx (by rw [hcx]; rfl)
    obtain ⟨c₀, hc₀, hall⟩ := h.get hx hcx
    by_cases hxn : x = n
    · refine ⟨v.count, ?_, by rw [h.self, hxn]⟩
      rw [hall, if_neg fun hk => absurd hk.2 (by decide), if_pos ⟨hxn, rfl⟩]
    · obtain ⟨d, hd, hlink⟩ := hi.self hx hroot (by simpa using Ne.symm hxn) hc₀
      refine ⟨d, ?_, by rw [h.old.link (hi.child hx hc₀ hd).1, hlink]⟩
      rw [hall, if_neg fun hk => hxn hk.1, if_neg fun hk => hxn hk.1, hd]
  · intro x hx hcx
    exact h.old.tmpfs hi (h.old_of_children hx hcx) hcx

/-- The two fields that mounting sets in its target. -/
theorem TreeInv.mounted {t m : Nat} (hi : TreeInv (some m) v) (htm : t < m) (hm : m < v.count)
    (htc : (v.node t).children.isSome) (hmc : (v.node m).children.isSome) :
    TreeInv (some m)
      (v.modify t fun node => { node with fs := some .tmpfs, mountpoint := some m }) := by
  have hsame : ∀ x, ((v.modify t fun node =>
      { node with fs := some .tmpfs, mountpoint := some m }).node x).children = (v.node x).children ∧
      ((v.modify t fun node =>
        { node with fs := some .tmpfs, mountpoint := some m }).node x).link = (v.node x).link := by
    intro x
    by_cases hx : x = t
    · subst hx
      simp only [Vfs.modify, Function.update_self, and_self]
    · simp only [Vfs.modify, Function.update_of_ne hx, and_self]
  obtain ⟨r, hr, hrlt, hrm⟩ := hi.root
  constructor
  · refine ⟨r, hr, hrlt, ?_⟩
    by_cases hx : r = t
    · subst hx
      simp only [Vfs.modify, Function.update_self, Option.isSome_some]
    · simpa only [Vfs.modify, Function.update_of_ne hx] using hrm
  · intro n x c k hn hc hget
    rw [(hsame n).1] at hc
    exact hi.child hn hc hget
  · intro n x hn hx
    rw [(hsame n).1, (hsame x).1]
    by_cases hnt : n = t
    · subst hnt
      simp only [Vfs.modify, Function.update_self, Option.some.injEq] at hx
      subst hx
      exact ⟨htm, hm, htc, hmc⟩
    · simp only [Vfs.modify, Function.update_of_ne hnt] at hx
      exact hi.mount hn hx
  · intro n l hn hl
    rw [(hsame n).2] at hl
    rw [(hsame n).1, (hsame l).2]
    exact hi.link hn hl
  · intro n c hn hroot hbare hc
    rw [(hsame n).1] at hc
    obtain ⟨d, hd, hlink⟩ := hi.self hn hroot hbare hc
    exact ⟨d, hd, by rw [(hsame d).2, hlink]⟩
  · intro n hn hc
    rw [(hsame n).1] at hc
    by_cases hnt : n = t
    · subst hnt
      simp only [Vfs.modify, Function.update_self]
    · simpa only [Vfs.modify, Function.update_of_ne hnt] using hi.fs hn hc

end Inv

end Flan.Fs
