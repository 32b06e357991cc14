import Flan.Fs.Tmpfs

/-! The file tree of `fs/vfs.c`: path resolution, creation and mounting. -/
namespace Flan.Fs
open Flan.Lib Flan.Memory

/-- `reduce_node` with a bound on its recursion; a chain longer than the number
of nodes never ends. -/
def reduceFrom (v : Vfs) : (fuel : Nat) → Nat → Option Nat
  | 0, _ => none
  | fuel+1, n =>
      match (v.node n).mountpoint with
      | some m => reduceFrom v fuel m
      | none =>
          match (v.node n).link with
          | some l => reduceFrom v fuel l
          | none => some n

def reduceNode (v : Vfs) (n : Nat) : Option Nat := reduceFrom v (v.count + 1) n

def dot : List Byte := ofChars ['.']
def dotdot : List Byte := ofChars ['.', '.']

def Vfs.setLink (v : Vfs) (n l : Nat) : Vfs := v.modify n fun node => { node with link := some l }

def createDot (v : Vfs) (parent n : Nat) : Option Vfs := do
  let fs := (v.node n).fs
  let (d, v) ← vfsCreateNode v (some n) dot fs false
  let (dd, v) ← vfsCreateNode v (some n) dot fs false
  let v := (v.setLink d n).setLink dd parent
  let v ← v.setChild n dot d
  v.setChild n dotdot dd

/-! ### Path resolution -/

/-- `path_to_node_t`. -/
structure PathToNode where
  parent : Option Nat
  result : Option Nat
  deriving DecidableEq, Repr

/-- The loop over the leading slashes; `none` when there is nothing else. -/
def skipSlashes : List Byte → Option (List Byte)
  | [] => none
  | c :: rest =>
      if c = slash then if rest = [] then none else skipSlashes rest
      else some (c :: rest)

/-- The copy `new_path`, without leading slashes and without one at the end. -/
def newPath (path : List Byte) : Option (List Byte) :=
  (skipSlashes path).map fun rest => if path.getLast? = some slash then rest.dropLast else rest

/-- The loop over the segments. A lookup in a node without children follows a
null pointer. -/
def walk (v : Vfs) : (fuel : Nat) → Strtok → (segment : Option (Nat × Nat)) → (parent current : Nat) →
    Option PathToNode
  | 0, _, _, _, _ => none
  | _+1, _, none, parent, current => some ⟨some parent, some current⟩
  | fuel+1, st, some p, parent, current =>
      match (v.node current).children with
      | none => none
      | some children =>
          let next := hashmapGet children (st.str p)
          let r := strtok st none
          match next with
          | some n => walk v fuel r.2 r.1 (if (v.node n).children.isSome then n else parent) n
          | none => some (if r.1.isSome then ⟨none, none⟩ else ⟨some parent, none⟩)

/-- `parent_node` and `current_node` before the loops. -/
def startNodes (v : Vfs) (parent : Option Nat) (path : List Byte) : Option (Nat × Nat) := do
  let p ← reduceNode v (← parent <|> v.root)
  if path.head? = some slash then return (p, ← reduceNode v (← v.root))
  else return (p, p)

/-- `path_to_node`. A null path is treated like the empty one. -/
def pathToNode (v : Vfs) (parent : Option Nat) (path : List Byte) : Option PathToNode :=
  if path = [] then some ⟨none, none⟩
  else
    (startNodes v parent path).bind fun start =>
      match newPath path with
      | none => some ⟨some start.1, some start.2⟩
      | some new =>
          let r := strtok ⟨fun _ => new, none⟩ (some 0)
          walk v (new.length + 2) r.2 r.1 start.1 start.2

def getNode (v : Vfs) (parent : Option Nat) (path : List Byte) : Option (Option Nat) :=
  (pathToNode v parent path).map PathToNode.result

def pathToParent (v : Vfs) (parent : Option Nat) (path : List Byte) : Option (Option Nat) :=
  (pathToNode v parent path).map PathToNode.parent

/-! ### Creation and mounting -/

/-- `vfs_create`. The function table of ext2fs creates nothing. -/
def vfsCreate (v : Vfs) (parent : Option Nat) (path : List Byte) (mode : Nat) :
    Option (Option Nat × Vfs) := do
  match ← pathToNode v parent path with
  | ⟨some p, none⟩ =>
      match ← (v.node p).fs with
      | .ext2fs => return (none, v)
      | .tmpfs =>
          let (n, v) ← tmpfsCreate v (some p) (basename path) mode
          let v ← if sIsDir mode then createDot v p n else some v
          return (some n, v)
  | _ => return (none, v)

def tmpfsMount (v : Vfs) (node : Option Nat) (name : List Byte) : Option (Nat × Vfs) := do
  let (ret, v) ← tmpfsCreate v node name sIfdir
  let n ← node
  return (ret, v.modify n fun node => { node with fs := some .tmpfs })

/-- The rest of `vfs_mount` for tmpfs, once the target has been looked up. -/
def mountTmpfs (v : Vfs) (r : PathToNode) (name : List Byte) : Option Vfs := do
  let (m, v) ← tmpfsMount v r.result name
  let t ← r.result
  createDot (v.modify t fun node => { node with mountpoint := some m }) (← r.parent) m

/-- The device node of a mount; tmpfs ignores it. -/
def sourceNode (v : Vfs) (parent : Option Nat) : Option (List Byte) → Option (Option Nat)
  | none => some none
  | some path => getNode v parent path

/-- `vfs_mount`. The mount function of ext2fs returns `NULL`, which
`create_dot` follows. -/
def vfsMount (v : Vfs) (parent : Option Nat) (source : Option (List Byte)) (target fsName : List Byte) :
    Option (Bool × Vfs) := do
  let fs ← hashmapGet v.filesystems fsName
  let _dev ← sourceNode v parent source
  let r ← pathToNode v parent target
  match fs with
  | .ext2fs => none
  | .tmpfs => return (true, ← mountTmpfs v r (basename target))

def tmpfsName : List Byte := ofChars ['t', 'm', 'p', 'f', 's']
def ext2fsName : List Byte := ofChars ['e', 'x', 't', '2', 'f', 's']

def vfsInit (heap : Nat → Mem) : Option Vfs := do
  let (root, v) ← vfsCreateNode (noVfs heap) none [] none true
  let filesystems := hashmapSet (hashmapSet v.filesystems tmpfsName .tmpfs) ext2fsName .ext2fs
  let (_, v) ← vfsMount { v with root := some root, filesystems } (some root) none [slash] tmpfsName
  return v

/-! ### Segments -/

/-- The walk over given segments. -/
def walkSegs (v : Vfs) : List (List Byte) → (parent current : Nat) → Option PathToNode
  | [], parent, current => some ⟨some parent, some current⟩
  | c :: cs, parent, current =>
      match (v.node current).children with
      | none => none
      | some children =>
          match hashmapGet children c with
          | some n => walkSegs v cs (if (v.node n).children.isSome then n else parent) n
          | none => some (if cs = [] then ⟨some parent, none⟩ else ⟨none, none⟩)

theorem walk_eq_walkSegs (v : Vfs) {b : Nat} {cs : List (List Byte)} {st : Strtok} {p : Nat × Nat}
    {fuel : Nat} (parent current : Nat) (hs : st.Scans b cs) (hf : cs.length + 2 ≤ fuel) :
    walk v fuel st (some p) parent current = walkSegs v (st.str p :: cs) parent current := by
  induction cs generalizing fuel st p parent current with
  | nil =>
      obtain ⟨fuel, rfl⟩ := Nat.exists_eq_add_of_le' hf
      simp only [walk, walkSegs, hs.stop]
      rfl
  | cons c cs ih =>
      rw [List.length_cons] at hf
      obtain ⟨fuel, rfl⟩ : ∃ k, fuel = k + 1 := Nat.exists_eq_add_of_le' (by omega)
      obtain ⟨q, st', hnext, hstr, hscan⟩ := hs.next
      rw [walk, walkSegs, hnext]
      cases (v.node current).children with
      | none => rfl
      | some children =>
          cases hget : hashmapGet children (st.str p) with
          | none => simp [hget]
          | some n =>
              simp only [hget]
              rw [ih _ _ hscan (by omega), hstr]

theorem length_splitOn_le (a : Byte) (l : List Byte) : (l.splitOn a).length ≤ l.length + 1 := by
  induction l with
  | nil => simp
  | cons x l ih =>
      rw [List.splitOn_cons_eq_if_modifyHead]
      split
      · simpa using ih
      · rw [List.length_modifyHead]
        exact Nat.le_succ_of_le ih

/-- The segments of a path; `none` when it has only slashes. -/
def segments (path : List Byte) : Option (List (List Byte)) :=
  (newPath path).map fun new => new.splitOn slash

theorem mem_of_mem_skipSlashes {path rest : List Byte} (h : skipSlashes path = some rest) :
    ∀ c ∈ rest, c ∈ path := by
  induction path with
  | nil => cases h
  | cons x path ih =>
      rw [skipSlashes] at h
      split at h
      · split at h
        · cases h
        · exact fun c hc => List.mem_cons_of_mem _ (ih h c hc)
      · cases h
        exact fun c hc => hc

theorem mem_of_mem_newPath {path new : List Byte} (h : newPath path = some new) :
    ∀ c ∈ new, c ∈ path := by
  obtain ⟨rest, hskip, rfl⟩ := Option.map_eq_some_iff.mp h
  intro c hc
  split at hc
  · exact mem_of_mem_skipSlashes hskip c (List.dropLast_subset _ hc)
  · exact mem_of_mem_skipSlashes hskip c hc

theorem walk_eq (v : Vfs) {new : List Byte} (hz : 0 ∉ new) (parent current : Nat) :
    walk v (new.length + 2) (strtok ⟨fun _ => new, none⟩ (some 0)).2
      (strtok ⟨fun _ => new, none⟩ (some 0)).1 parent current =
    walkSegs v (new.splitOn slash) parent current := by
  cases hsplit : new.splitOn slash with
  | nil => exact absurd hsplit (List.splitOn_ne_nil _ _)
  | cons c cs =>
      obtain ⟨st', hfirst, hstr, hscan⟩ :=
        @strtok_at ⟨fun _ => new, none⟩ (some 0) 0 0 c cs rfl hz hsplit
      have hlen := length_splitOn_le slash new
      rw [hsplit, List.length_cons] at hlen
      rw [hfirst]
      simp only
      rw [walk_eq_walkSegs v parent current hscan (by omega), hstr]

/-- `path_to_node` on a string, in terms of its segments. -/
theorem pathToNode_eq (v : Vfs) (parent : Option Nat) {path : List Byte} (hz : 0 ∉ path)
    (hne : path ≠ []) :
    pathToNode v parent path = (startNodes v parent path).bind fun start =>
      match segments path with
      | none => some ⟨some start.1, some start.2⟩
      | some cs => walkSegs v cs start.1 start.2 := by
  rw [pathToNode, if_neg hne, segments]
  cases hnew : newPath path with
  | none => rfl
  | some new =>
      have hz' : 0 ∉ new := fun h => hz (mem_of_mem_newPath hnew 0 h)
      simp only [walk_eq v hz', Option.map_some]

/-! ### The last component -/

theorem Leads.append {a b : List Byte} (ha : Leads a) (hb : Leads b) : Leads (a ++ b) := by
  rcases hb with rfl | ⟨b, rfl⟩
  · rwa [List.append_nil]
  · exact .inr ⟨a ++ b, by rw [List.append_assoc]⟩

theorem leads_slashes {a : List Byte} (ha : ∀ x ∈ a, x = slash) : Leads a := by
  rcases List.eq_nil_or_concat' a with rfl | ⟨a, x, rfl⟩
  · exact .inl rfl
  · rw [ha x (List.mem_append_right _ List.mem_cons_self)]
    exact .inr ⟨a, rfl⟩

theorem intercalate_append {l m : List (List Byte)} (hl : l ≠ []) (hm : m ≠ []) :
    [slash].intercalate (l ++ m) = [slash].intercalate l ++ [slash] ++ [slash].intercalate m := by
  induction l with
  | nil => exact absurd rfl hl
  | cons d l ih =>
      by_cases ht : l = []
      · subst ht
        rw [List.singleton_append, List.intercalate_cons_of_ne_nil hm, List.intercalate_singleton]
      · rw [List.cons_append, List.intercalate_cons_of_ne_nil (by simp [ht]), ih ht,
          List.intercalate_cons_of_ne_nil ht]
        simp only [List.append_assoc]

theorem intercalate_concat (pre : List (List Byte)) (c : List Byte) :
    ∃ a, [slash].intercalate (pre ++ [c]) = a ++ c ∧ Leads a := by
  by_cases hpre : pre = []
  · subst hpre
    exact ⟨[], List.intercalate_singleton, .inl rfl⟩
  · refine ⟨[slash].intercalate pre ++ [slash], ?_, .inr ⟨_, rfl⟩⟩
    rw [intercalate_append hpre (by simp), List.intercalate_singleton]

theorem slash_not_mem {l c : List Byte} (h : c ∈ l.splitOn slash) : slash ∉ c := by
  induction l generalizing c with
  | nil =>
      rw [List.splitOn_nil, List.mem_singleton] at h
      rw [h]
      exact List.not_mem_nil
  | cons x l ih =>
      rw [List.splitOn_cons_eq_if_modifyHead] at h
      split at h
      · rcases List.mem_cons.mp h with rfl | h
        · exact List.not_mem_nil
        · exact ih h
      · rename_i hx
        cases hl : l.splitOn slash with
        | nil => exact absurd hl (List.splitOn_ne_nil _ _)
        | cons d ds =>
            rw [hl, List.modifyHead_cons] at h
            rcases List.mem_cons.mp h with rfl | h
            · have hd : slash ∉ d := ih (by rw [hl]; exact List.mem_cons_self)
              rw [List.mem_cons, not_or]
              exact ⟨fun he => hx (by rw [he]; exact beq_self_eq_true x), hd⟩
            · exact ih (by rw [hl]; exact List.mem_cons_of_mem _ h)

theorem skipSlashes_decomp {path rest : List Byte} (h : skipSlashes path = some rest) :
    ∃ a, path = a ++ rest ∧ (∀ x ∈ a, x = slash) ∧ ∃ c cs, rest = c :: cs ∧ c ≠ slash := by
  induction path with
  | nil => cases h
  | cons c path ih =>
      rw [skipSlashes] at h
      split at h
      · rename_i hc
        split at h
        · cases h
        · obtain ⟨a, rfl, ha, hrest⟩ := ih h
          exact ⟨c :: a, rfl, List.forall_mem_cons.mpr ⟨hc, ha⟩, hrest⟩
      · rename_i hc
        cases h
        exact ⟨[], rfl, fun x hx => (List.not_mem_nil hx).elim, c, path, rfl, hc⟩

theorem newPath_decomp {path new : List Byte} (h : newPath path = some new) :
    ∃ a t, path = a ++ new ++ t ∧ (∀ x ∈ a, x = slash) ∧ (∀ x ∈ t, x = slash) ∧
      ∃ c cs, new = c :: cs ∧ c ≠ slash := by
  obtain ⟨rest, hskip, rfl⟩ := Option.map_eq_some_iff.mp h
  obtain ⟨a, hpath, ha, c, cs, rfl, hc⟩ := skipSlashes_decomp hskip
  split
  · rename_i hlast
    rcases List.eq_nil_or_concat' cs with rfl | ⟨cs, x, rfl⟩
    · rw [hpath, List.getLast?_append] at hlast
      simp at hlast
      exact absurd hlast hc
    · have hx : x = slash := by
        rw [hpath, ← List.cons_append, ← List.append_assoc, List.getLast?_concat] at hlast
        exact Option.some.inj hlast
      refine ⟨a, [x], ?_, ha, by simpa using hx, c, cs, ?_, hc⟩
      · rw [hpath, ← List.cons_append, List.dropLast_concat, List.append_assoc]
      · rw [← List.cons_append, List.dropLast_concat]
  · exact ⟨a, [], by rw [hpath, List.append_nil], ha, fun x hx => (List.not_mem_nil hx).elim, c, cs,
      rfl, hc⟩

/-- `basename` is the last segment, or the one before when that is empty. -/
theorem basename_segments {path : List Byte} {pre : List (List Byte)} {c : List Byte}
    (h : segments path = some (pre ++ [c]) ∨ segments path = some (pre ++ [c, []])) (hc : c ≠ []) :
    basename path = c := by
  obtain ⟨new, hnew, hsplit⟩ : ∃ new, newPath path = some new ∧
      (new.splitOn slash = pre ++ [c] ∨ new.splitOn slash = pre ++ [c] ++ [[]]) := by
    rcases h with h | h
    · obtain ⟨new, hnew, hs⟩ := Option.map_eq_some_iff.mp h
      exact ⟨new, hnew, .inl hs⟩
    · obtain ⟨new, hnew, hs⟩ := Option.map_eq_some_iff.mp h
      exact ⟨new, hnew, .inr (by rw [hs, List.append_assoc]; rfl)⟩
  obtain ⟨a, t, hpath, ha, ht, -⟩ := newPath_decomp hnew
  obtain ⟨b, hb, hlead⟩ := intercalate_concat pre c
  have hcat : [slash].intercalate (new.splitOn slash) = new := List.intercalate_splitOn slash
  have hns : slash ∉ c := slash_not_mem (l := new) (by rcases hsplit with h | h <;> simp [h])
  have hl := (leads_slashes ha).append hlead
  rcases hsplit with hsplit | hsplit
  · rw [hsplit, hb] at hcat
    rw [hpath, ← hcat, ← List.append_assoc]
    exact basename_eq hns hc hl ht
  · rw [hsplit, intercalate_append (by simp) (by simp), hb, List.intercalate_singleton,
      List.append_nil] at hcat
    have hshape : path = a ++ b ++ c ++ (slash :: t) := by
      rw [hpath, ← hcat]
      simp only [List.append_assoc, List.cons_append, List.nil_append]
    rw [hshape]
    exact basename_eq hns hc hl (List.forall_mem_cons.mpr ⟨rfl, ht⟩)

theorem skipSlashes_eq_none {path : List Byte} (h : skipSlashes path = none) :
    ∀ x ∈ path, x = slash := by
  induction path with
  | nil => exact fun x hx => (List.not_mem_nil hx).elim
  | cons c path ih =>
      rw [skipSlashes] at h
      split at h
      · rename_i hc
        refine List.forall_mem_cons.mpr ⟨hc, ?_⟩
        split at h
        · rename_i hnil
          rw [hnil]
          exact fun x hx => (List.not_mem_nil hx).elim
        · exact ih h
      · cases h

theorem stripEnd_all {s : List Byte} (hs : ∀ x ∈ s, x = slash) {i : Nat} (hi : i < s.length) :
    stripEnd s i = 0 := by
  induction i with
  | zero => rfl
  | succ i ih =>
      have hat : s.getD (i + 1) 0 = slash := by
        rw [List.getD_eq_getElem _ _ hi]
        exact hs _ (List.getElem_mem _)
      rw [stripEnd, if_pos hat, ih (by omega)]

theorem segments_eq_none {path : List Byte} (h : segments path = none) : ∀ x ∈ path, x = slash :=
  skipSlashes_eq_none (Option.map_eq_none_iff.mp (Option.map_eq_none_iff.mp h))

theorem basename_slashes {path : List Byte} (hne : path ≠ []) (hall : ∀ x ∈ path, x = slash) :
    basename path = [slash] := by
  have hpos := List.length_pos_iff.mpr hne
  rw [basename, if_neg hne, stripEnd_all hall (by omega)]
  cases path with
  | nil => exact absurd rfl hne
  | cons c path =>
      rw [hall c List.mem_cons_self]
      rfl

end Flan.Fs
