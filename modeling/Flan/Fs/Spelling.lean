import Flan.Fs.PathMap
import Flan.Fs.WalkSafety

/-! Slashes in paths. `path_to_node` of `fs/vfs.c` drops those before the first component and
one at the end; between components `strtok` gives an empty one for each further slash, and no
node has an empty name. -/
namespace Flan.Fs
open Flan.Lib

/-- Every run of slashes replaced by one. -/
def squeeze : List Byte → List Byte
  | [] => []
  | c :: rest => if c = slash ∧ rest.head? = some slash then squeeze rest else c :: squeeze rest

/-- The plain spelling of a path: single slashes, and none at the end unless it is alone. -/
def plain (path : List Byte) : List Byte :=
  if squeeze path = [slash] then [slash] else trimEnd (squeeze path)

/-- The names from the root of the tree down to a node. -/
def namesTo (v : Vfs) : (fuel : Nat) → Nat → List (List Byte)
  | 0, _ => []
  | fuel+1, n =>
      match (v.node n).parent with
      | none => []
      | some p => namesTo v fuel p ++ [(v.node n).name]

/-- The full path of the node that `vfs_create` makes, if it makes one. -/
def createdAt (v : Vfs) (parent : Option Nat) (path : List Byte) (mode : Nat) : Option (List (List Byte)) := do
  let (n, v) ← vfsCreate v parent path mode
  return namesTo v v.count (← n)

/-- Two paths lead to the same node, and to the same new one. -/
structure SameMeaning (v : Vfs) (parent : Option Nat) (path path' : List Byte) : Prop where
  node : getNode v parent path = getNode v parent path'
  create : ∀ mode, createdAt v parent path mode = createdAt v parent path' mode

/-- The components of a path: its segments without the empty ones. -/
def comps (path : List Byte) : List (List Byte) := (path.splitOn slash).filter (· ≠ [])

/-! ### Components -/

section Comps
variable {path l : List Byte} {c : List Byte} {cs : List (List Byte)}

theorem comps_append_slash (a b : List Byte) : comps (a ++ slash :: b) = comps a ++ comps b := by
  rw [comps, List.splitOn_append_cons_self, List.filter_append]
  rfl

theorem comps_slash (l : List Byte) : comps (slash :: l) = comps l := comps_append_slash [] l

theorem comps_slashes_append {a : List Byte} (ha : ∀ x ∈ a, x = slash) (l : List Byte) :
    comps (a ++ l) = comps l := by
  induction a with
  | nil => rfl
  | cons x a ih =>
      obtain ⟨rfl, hrest⟩ := List.forall_mem_cons.mp ha
      rw [List.cons_append, comps_slash, ih hrest]

theorem comps_append_slashes {t : List Byte} (ht : ∀ x ∈ t, x = slash) (l : List Byte) :
    comps (l ++ t) = comps l := by
  cases t with
  | nil => rw [List.append_nil]
  | cons x t =>
      obtain ⟨rfl, hrest⟩ := List.forall_mem_cons.mp ht
      have hnone : comps t = [] := by
        have := comps_slashes_append hrest []
        rwa [List.append_nil] at this
      rw [comps_append_slash, hnone, List.append_nil]

theorem piece_of_mem_comps (h : c ∈ comps l) : c ≠ [] ∧ slash ∉ c := by
  obtain ⟨hmem, hne⟩ := List.mem_filter.mp h
  exact ⟨of_decide_eq_true hne, slash_not_mem hmem⟩

/-- The components are the segments that `path_to_node` takes, without the empty ones. -/
theorem comps_segments (h : segments path = some cs) : comps path = cs.filter (· ≠ []) := by
  obtain ⟨new, hnew, rfl⟩ := Option.map_eq_some_iff.mp h
  obtain ⟨a, t, rfl, ha, ht, -⟩ := newPath_decomp hnew
  rw [comps_append_slashes ht, comps_slashes_append ha]
  rfl

theorem comps_ne_nil (h : segments path = some cs) : comps path ≠ [] := by
  rw [comps_segments h]
  cases cs with
  | nil =>
      obtain ⟨new, -, hsplit⟩ := Option.map_eq_some_iff.mp h
      exact absurd hsplit (List.splitOn_ne_nil _ _)
  | cons c cs =>
      rw [List.filter_cons_of_pos (by simpa using segments_head h)]
      exact List.cons_ne_nil _ _

theorem comps_eq_nil (h : segments path = none) : comps path = [] := by
  have hall := segments_eq_none h
  have := comps_slashes_append hall []
  rwa [List.append_nil] at this

/-- The last component stands before the slashes at the end. -/
theorem exists_last_comp (h : comps path = cs ++ [c]) :
    ∃ pre t, path = pre ++ c ++ t ∧ Leads pre ∧ ∀ x ∈ t, x = slash := by
  induction path using List.reverseRecOn with
  | nil => exact absurd h.symm (List.concat_ne_nil _ _)
  | append_singleton l x ih =>
      by_cases hx : x = slash
      · subst hx
        rw [comps_append_slashes (by simp)] at h
        obtain ⟨pre, t, rfl, hpre, ht⟩ := ih h
        refine ⟨pre, t ++ [slash], by rw [List.append_assoc], hpre, ?_⟩
        exact List.forall_mem_append.mpr ⟨ht, by simp⟩
      · rcases List.eq_nil_or_concat' ((l ++ [x]).splitOn slash) with hnil | ⟨ps, q, hsplit⟩
        · exact absurd hnil (List.splitOn_ne_nil _ _)
        · obtain ⟨a, ha, hlead⟩ := intercalate_concat ps q
          rw [← hsplit, List.intercalate_splitOn] at ha
          have hq : q ≠ [] := by
            rintro rfl
            rw [List.append_nil] at ha
            rcases hlead with rfl | ⟨b, rfl⟩
            · exact List.concat_ne_nil _ _ ha
            · exact hx (List.singleton_inj.mp (List.append_inj' ha rfl).2)
          have hlast : ps.filter (· ≠ []) ++ [q] = cs ++ [c] := by
            rw [← h, comps, hsplit, List.filter_append, List.filter_cons_of_pos (by simpa using hq)]
            rfl
          obtain ⟨-, hc⟩ := List.append_inj' hlast rfl
          cases hc
          exact ⟨a, [], by rw [ha, List.append_nil], hlead, fun x hx => absurd hx List.not_mem_nil⟩

/-- `basename` is the last component, however many slashes stand behind it. -/
theorem basename_comps (h : comps path = cs ++ [c]) : basename path = c := by
  have hmem : c ∈ comps path := by
    rw [h]
    exact List.mem_concat_self
  obtain ⟨hne, hslash⟩ := piece_of_mem_comps hmem
  obtain ⟨pre, t, rfl, hpre, ht⟩ := exists_last_comp h
  exact basename_eq hslash hne hpre ht

end Comps

/-! ### The plain spelling -/

section Plain
variable {path l : List Byte} {cs : List (List Byte)}

theorem splitOn_slash (l : List Byte) : (slash :: l).splitOn slash = [] :: l.splitOn slash :=
  List.splitOn_append_cons_self [] l

theorem splitOn_cons_of_ne {c : Byte} {d : List Byte} {ds : List (List Byte)} (hc : c ≠ slash)
    (h : l.splitOn slash = d :: ds) : (c :: l).splitOn slash = (c :: d) :: ds := by
  rw [List.splitOn_cons_eq_if_modifyHead, if_neg (by simpa using hc), h, List.modifyHead_cons]

/-- Squeezing leaves the first piece and the components behind it, and an empty piece for a
slash at the end. -/
theorem splitOn_squeeze (l : List Byte) : ∃ d ds, l.splitOn slash = d :: ds ∧
    (squeeze l).splitOn slash = d :: (ds.filter (· ≠ []) ++ if l.getLast? = some slash then [[]] else []) := by
  induction l with
  | nil => exact ⟨[], [], rfl, rfl⟩
  | cons c l ih =>
      obtain ⟨d, ds, hd, hsq⟩ := ih
      by_cases hc : c = slash
      · subst hc
        cases l with
        | nil => exact ⟨[], [[]], by decide, by decide⟩
        | cons x l =>
            refine ⟨[], d :: ds, by rw [splitOn_slash, hd], ?_⟩
            rw [List.getLast?_cons_cons]
            unfold squeeze
            by_cases hx : x = slash
            · -- A slash behind a slash: the piece between them is empty.
              subst hx
              rw [splitOn_slash] at hd
              obtain ⟨rfl, -⟩ := List.cons.inj hd
              rw [if_pos ⟨rfl, rfl⟩, hsq, List.filter_cons_of_neg (by simp)]
            · have hne : d ≠ [] := by
                rintro rfl
                rcases hl : l.splitOn slash with _ | ⟨e, es⟩
                · exact List.splitOn_ne_nil _ _ hl
                · rw [splitOn_cons_of_ne hx hl] at hd
                  cases hd
              rw [if_neg (by simpa using hx), splitOn_slash, hsq, List.filter_cons_of_pos (by simpa using hne)]
              rfl
      · have hlast : (c :: l).getLast? = some slash ↔ l.getLast? = some slash := by
          cases l with
          | nil => simpa using hc
          | cons x l => rw [List.getLast?_cons_cons]
        refine ⟨c :: d, ds, splitOn_cons_of_ne hc hd, ?_⟩
        unfold squeeze
        rw [if_neg fun h => hc h.1, splitOn_cons_of_ne hc hsq]
        simp only [hlast]

theorem comps_cons {d : List Byte} {ds : List (List Byte)} (h : l.splitOn slash = d :: ds) :
    comps l = if d = [] then ds.filter (· ≠ []) else d :: ds.filter (· ≠ []) := by
  rw [comps, h]
  split
  case isTrue hd => rw [List.filter_cons_of_neg (by simpa using hd)]
  case isFalse hd => rw [List.filter_cons_of_pos (by simpa using hd)]

theorem comps_squeeze (l : List Byte) : comps (squeeze l) = comps l := by
  obtain ⟨d, ds, hd, hsq⟩ := splitOn_squeeze l
  have htrail : (if l.getLast? = some slash then [[]] else []).filter (fun c : List Byte => c ≠ []) = [] := by
    split <;> rfl
  rw [comps_cons hd, comps_cons hsq, List.filter_append, List.filter_filter, htrail, List.append_nil]
  simp only [Bool.and_self]

theorem slashes_of_comps (h : comps path = []) : ∀ x ∈ path, x = slash := by
  induction path with
  | nil => exact fun x hx => absurd hx List.not_mem_nil
  | cons c l ih =>
      by_cases hc : c = slash
      · subst hc
        rw [comps_slash] at h
        exact List.forall_mem_cons.mpr ⟨rfl, ih h⟩
      · rcases hl : l.splitOn slash with _ | ⟨d, ds⟩
        · exact absurd hl (List.splitOn_ne_nil _ _)
        · rw [comps_cons (splitOn_cons_of_ne hc hl), if_neg (List.cons_ne_nil _ _)] at h
          cases h

theorem squeeze_slashes (hne : path ≠ []) (h : ∀ x ∈ path, x = slash) : squeeze path = [slash] := by
  induction path with
  | nil => exact absurd rfl hne
  | cons c l ih =>
      obtain ⟨hc, hl⟩ := List.forall_mem_cons.mp h
      unfold squeeze
      cases l with
      | nil =>
          rw [if_neg (by simp), hc]
          rfl
      | cons x l =>
          have hx : (x :: l).head? = some slash := congrArg some (hl x List.mem_cons_self)
          rw [if_pos ⟨hc, hx⟩, ih (List.cons_ne_nil _ _) hl]

/-- A path of slashes only becomes one. -/
theorem plain_slashes (hne : path ≠ []) (h : comps path = []) : plain path = [slash] :=
  if_pos (squeeze_slashes hne (slashes_of_comps h))

/-- The first piece is empty exactly when the path begins with a slash. -/
theorem head_slash_iff (hne : l ≠ []) {d : List Byte} {ds : List (List Byte)} (h : l.splitOn slash = d :: ds) :
    l.head? = some slash ↔ d = [] := by
  cases l with
  | nil => exact absurd rfl hne
  | cons c l =>
      by_cases hc : c = slash
      · subst hc
        rw [splitOn_slash] at h
        obtain ⟨rfl, -⟩ := List.cons.inj h
        exact iff_of_true rfl rfl
      · rcases hl : l.splitOn slash with _ | ⟨e, es⟩
        · exact absurd hl (List.splitOn_ne_nil _ _)
        · rw [splitOn_cons_of_ne hc hl] at h
          obtain ⟨rfl, -⟩ := List.cons.inj h
          exact iff_of_false (by simpa using hc) (List.cons_ne_nil _ _)

/-- The first piece and the components behind it spell the path. -/
theorem intercalate_pieces (h : comps l ≠ []) {d : List Byte} {ds : List (List Byte)}
    (hd : l.splitOn slash = d :: ds) :
    [slash].intercalate (d :: ds.filter (· ≠ [])) = spell (l.head? = some slash) false (comps l) := by
  have hne : l ≠ [] := by
    rintro rfl
    exact h rfl
  rw [comps_cons hd] at h ⊢
  unfold spell
  by_cases hnil : d = []
  · rw [if_pos hnil] at h ⊢
    rw [hnil, List.intercalate_cons_of_ne_nil h, decide_eq_true ((head_slash_iff hne hd).mpr hnil)]
    simp
  · rw [if_neg hnil, decide_eq_false fun hh => hnil ((head_slash_iff hne hd).mp hh)]
    simp

/-- Any other path is spelled with its components. -/
theorem plain_eq (h : comps path ≠ []) : plain path = spell (path.head? = some slash) false (comps path) := by
  obtain ⟨d, ds, hd, hsq⟩ := splitOn_squeeze path
  have hne : squeeze path ≠ [slash] := by
    intro hs
    rw [← comps_squeeze, hs] at h
    exact h rfl
  have hspell := intercalate_pieces h hd
  have hcat : [slash].intercalate ((squeeze path).splitOn slash) = squeeze path := List.intercalate_splitOn slash
  rw [plain, if_neg hne, ← hspell, ← hcat, hsq, trimEnd]
  by_cases hlast : path.getLast? = some slash
  · rw [if_pos hlast, ← List.cons_append, intercalate_append (List.cons_ne_nil _ _) (List.cons_ne_nil _ _),
      List.intercalate_singleton, List.append_nil, List.getLast?_concat, if_pos rfl, List.dropLast_concat]
  · have hend : (spell (path.head? = some slash) false (comps path)).getLast? ≠ some slash := by
      obtain ⟨x, xs, hmid, -⟩ := intercalate_head h fun c => piece_of_mem_comps
      have hlast := intercalate_getLast h fun c => piece_of_mem_comps
      rw [spell, if_neg Bool.false_ne_true, List.append_nil, List.getLast?_append_of_ne_nil]
      · exact hlast
      · rw [hmid]
        exact List.cons_ne_nil _ _
    rw [if_neg hlast, List.append_nil, hspell, if_neg hend]

/-- The segments of the plain spelling are the components of the path. -/
theorem segments_plain (path : List Byte) : segments (plain path) = (segments path).map fun _ => comps path := by
  cases hseg : segments path with
  | none =>
      by_cases hne : path = []
      · subst hne
        rfl
      · rw [plain_slashes hne (comps_eq_nil hseg)]
        rfl
  | some cs =>
      have hc := comps_ne_nil hseg
      rw [plain_eq hc, segments_spell hc fun c => piece_of_mem_comps]
      rfl

theorem comps_plain (path : List Byte) : comps (plain path) = comps path := by
  cases hseg : segments path with
  | none =>
      by_cases hne : path = []
      · rw [hne]
        rfl
      · rw [plain_slashes hne (comps_eq_nil hseg), comps_eq_nil hseg]
        rfl
  | some cs =>
      have hplain := segments_plain path
      rw [hseg] at hplain
      rw [comps_segments hplain, comps, List.filter_filter]
      simp only [Bool.and_self]

theorem mem_squeeze {x : Byte} (h : x ∈ squeeze l) : x ∈ l := by
  induction l with
  | nil => exact h
  | cons c l ih =>
      unfold squeeze at h
      split at h
      · exact List.mem_cons_of_mem c (ih h)
      · rcases List.mem_cons.mp h with rfl | h
        · exact List.mem_cons_self
        · exact List.mem_cons_of_mem c (ih h)

theorem zero_not_mem_plain (hz : 0 ∉ path) : 0 ∉ plain path := by
  unfold plain trimEnd
  split
  · decide
  · split
    · exact fun h => hz (mem_squeeze (List.dropLast_subset _ h))
    · exact fun h => hz (mem_squeeze h)

theorem plain_head (path : List Byte) : (plain path).head? = some slash ↔ path.head? = some slash := by
  by_cases hne : path = []
  · rw [hne]
    rfl
  · by_cases hc : comps path = []
    · rw [plain_slashes hne hc]
      refine iff_of_true rfl ?_
      cases path with
      | nil => exact absurd rfl hne
      | cons c l => exact congrArg some (slashes_of_comps hc c List.mem_cons_self)
    · obtain ⟨x, xs, hmid, hx⟩ := intercalate_head hc fun c => piece_of_mem_comps
      rw [plain_eq hc, spell, hmid]
      by_cases hhead : path.head? = some slash
      · simp [hhead]
      · simp [hhead, hx]

/-- The name of a new node does not depend on the slashes. -/
theorem basename_plain (path : List Byte) : basename (plain path) = basename path := by
  rcases List.eq_nil_or_concat' (comps path) with hnil | ⟨cs, c, hcs⟩
  · by_cases hne : path = []
    · rw [hne]
      rfl
    · have hseg : segments path = none := by
        cases hseg : segments path with
        | none => rfl
        | some cs => exact absurd hnil (comps_ne_nil hseg)
      rw [plain_slashes hne hnil, basename_slashes hne (segments_eq_none hseg)]
      rfl
  · rw [basename_comps hcs, basename_comps ((comps_plain path).trans hcs)]

theorem plain_ne_nil (hne : path ≠ []) : plain path ≠ [] := by
  intro h
  by_cases hc : comps path = []
  · rw [plain_slashes hne hc] at h
    cases h
  · rw [← comps_plain, h] at hc
    exact hc rfl

theorem startNodes_plain (v : Vfs) (parent : Option Nat) (path : List Byte) :
    startNodes v parent (plain path) = startNodes v parent path := by
  unfold startNodes
  simp only [plain_head]

end Plain

/-! ### Walks past empty segments -/

section Gap
variable {v : Vfs} {cs : List (List Byte)} {par cur : Nat} {q : Option Nat}

/-- No node has an empty name. -/
theorem TreeInv.get_nil (hi : TreeInv none v) (hcur : cur < v.count) {m : Hashmap Nat}
    (hm : (v.node cur).children = some m) : hashmapGet m [] = none := by
  cases hg : hashmapGet m [] with
  | none => rfl
  | some n => exact absurd rfl (hi.child hcur hm hg).2.2

/-- A walk with an empty segment finds nothing. -/
theorem TreeInv.gap_not_found (hi : TreeInv none v) (hcur : cur < v.count) (hmem : [] ∈ cs) (x : Nat) :
    walkSegs v cs par cur ≠ some ⟨q, some x⟩ := by
  induction cs generalizing par cur with
  | nil => exact absurd hmem List.not_mem_nil
  | cons c cs ih =>
      unfold walkSegs
      cases hm : (v.node cur).children with
      | none => simp
      | some m =>
          cases hg : hashmapGet m c with
          | none =>
              simp only [hg]
              split <;> simp
          | some n =>
              simp only [hg]
              obtain ⟨hn, -, hne⟩ := hi.child hcur hm hg
              exact ih hn ((List.mem_cons.mp hmem).resolve_left (Ne.symm hne))

/-- Where the components do not lead to a node either, it breaks off before its last
segment. -/
theorem TreeInv.gap_missing (hi : TreeInv none v) (hcur : cur < v.count) (hmem : [] ∈ cs)
    (h : walkSegs v (cs.filter (· ≠ [])) par cur = some ⟨q, none⟩) :
    walkSegs v cs par cur = some ⟨none, none⟩ := by
  induction cs generalizing par cur with
  | nil => exact absurd hmem List.not_mem_nil
  | cons c cs ih =>
      by_cases hc : c = []
      · subst hc
        rw [List.filter_cons_of_neg (by simp)] at h
        unfold walkSegs
        cases hrest : cs.filter (· ≠ []) with
        | nil =>
            rw [hrest] at h
            cases h
        | cons d ds =>
            have hcs : cs ≠ [] := by
              rintro rfl
              cases hrest
            rw [hrest, walkSegs] at h
            cases hm : (v.node cur).children with
            | none =>
                rw [hm] at h
                cases h
            | some m => simp only [hi.get_nil hcur hm, if_neg hcs]
      · have hcs : [] ∈ cs := (List.mem_cons.mp hmem).resolve_left (Ne.symm hc)
        rw [List.filter_cons_of_pos (by simpa using hc), walkSegs] at h
        unfold walkSegs
        cases hm : (v.node cur).children with
        | none =>
            rw [hm] at h
            cases h
        | some m =>
            rw [hm] at h
            dsimp only at h ⊢
            cases hg : hashmapGet m c with
            | none => simp only [if_neg (List.ne_nil_of_mem hcs)]
            | some n =>
                rw [hg] at h
                exact ih (hi.child hcur hm hg).1 hcs h

theorem walkSegs_parent_dir {p : Nat} {r : Option Nat} (hpar : (v.node par).children.isSome)
    (h : walkSegs v cs par cur = some ⟨some p, r⟩) : (v.node p).children.isSome := by
  induction cs generalizing par cur with
  | nil =>
      cases h
      exact hpar
  | cons c cs ih =>
      unfold walkSegs at h
      cases hm : (v.node cur).children with
      | none =>
          rw [hm] at h
          cases h
      | some m =>
          rw [hm] at h
          dsimp only at h
          cases hg : hashmapGet m c with
          | none =>
              rw [hg] at h
              dsimp only at h
              split at h
              · cases h
                exact hpar
              · cases h
          | some n =>
              rw [hg] at h
              refine ih ?_ h
              split
              case isTrue hn => exact hn
              case isFalse => exact hpar

end Gap

/-! ### Spelling and meaning -/

/-- No two slashes stand between components or behind the last one. -/
def SingleSlashes (path : List Byte) : Prop := ∀ cs, segments path = some cs → [] ∉ cs

section Meaning
variable {v : Vfs} {parent : Option Nat} {path path' : List Byte} {p : Nat}

/-- The outcome of a call of `vfs_create` depends on the walk and on the name. -/
theorem createdAt_congr (hpath : pathToNode v parent path = pathToNode v parent path')
    (hname : basename path = basename path') (mode : Nat) :
    createdAt v parent path mode = createdAt v parent path' mode := by
  unfold createdAt vfsCreate
  rw [hpath, hname]

theorem sameMeaning_of_eq (hpath : pathToNode v parent path = pathToNode v parent (plain path)) :
    SameMeaning v parent path (plain path) :=
  ⟨congrArg (Option.map PathToNode.result) hpath, createdAt_congr hpath (basename_plain path).symm⟩

/-- From a directory, `vfs_create` makes a node where there is a parent but none yet. -/
theorem TreeInv.createdAt_isSome (hi : TreeInv none v)
    (hp : ∀ d, parent = some d → d < v.count ∧ DenotesDir v d) (hz : 0 ∉ path)
    (h : pathToNode v parent path = some ⟨some p, none⟩) (mode : Nat) :
    (createdAt v parent path mode).isSome := by
  have hlt : ∀ d, parent = some d → d < v.count := fun d hd => (hp d hd).1
  have hne : path ≠ [] := by
    rintro rfl
    cases h
  obtain ⟨s, t, hstart, -, -, hs, -⟩ := hi.starts parent hlt path
  have hdir : (v.node s).children.isSome := by
    cases parent with
    | none =>
        obtain ⟨m, hm, -, hc⟩ := hi.reduces_root
        cases hm.symm.trans hs
        exact hc
    | some d =>
        obtain ⟨m, hm, hc⟩ := (hp d rfl).2
        cases hm.symm.trans hs
        exact hc
  have hwalk := h
  rw [pathToNode_eq v parent hz hne, hstart, Option.bind_some] at hwalk
  have hpc : (v.node p).children.isSome := by
    cases hseg : segments path with
    | none =>
        rw [hseg] at hwalk
        cases hwalk
    | some cs =>
        rw [hseg] at hwalk
        exact walkSegs_parent_dir hdir hwalk
  have hplt := ((hi.resolve_ends hlt hz h).1 p rfl).1
  obtain ⟨c, hc⟩ := Option.isSome_iff_exists.mp hpc
  obtain ⟨v', hcreate, -⟩ := @vfsCreate_creates v p mode parent path c h hplt hc (hi.fs hplt hpc)
  rw [createdAt, hcreate]
  rfl

/-- Both spellings walk from the same node, one over the segments and one over those that
are not empty. -/
theorem TreeInv.walks_plain (hi : TreeInv none v) (hp : ∀ d, parent = some d → d < v.count) (hz : 0 ∉ path)
    {cs : List (List Byte)} (hseg : segments path = some cs) :
    ∃ s t, t < v.count ∧ pathToNode v parent path = walkSegs v cs s t ∧
      pathToNode v parent (plain path) = walkSegs v (cs.filter (· ≠ [])) s t := by
  have hne : path ≠ [] := by
    rintro rfl
    cases hseg
  obtain ⟨s, t, hstart, -, ht, -⟩ := hi.starts parent hp path
  refine ⟨s, t, ht.lt, ?_, ?_⟩
  · rw [pathToNode_eq v parent hz hne, hstart, Option.bind_some, hseg]
  · rw [pathToNode_eq v parent (zero_not_mem_plain hz) (plain_ne_nil hne), startNodes_plain, hstart,
      Option.bind_some, segments_plain, hseg, Option.map_some, comps_segments hseg]

/-- Without further slashes the two spellings are walked alike. -/
theorem SingleSlashes.pathToNode (h : SingleSlashes path) (hi : TreeInv none v)
    (hp : ∀ d, parent = some d → d < v.count) (hz : 0 ∉ path) :
    pathToNode v parent path = pathToNode v parent (plain path) := by
  cases hseg : segments path with
  | none =>
      by_cases hne : path = []
      · rw [hne]
        rfl
      · rw [pathToNode_eq v parent hz hne, pathToNode_eq v parent (zero_not_mem_plain hz) (plain_ne_nil hne),
          startNodes_plain, segments_plain, hseg]
        rfl
  | some cs =>
      obtain ⟨s, t, -, hpath, hplain⟩ := hi.walks_plain hp hz hseg
      have hall : cs.filter (· ≠ []) = cs := by
        apply List.filter_eq_self.mpr
        intro c hc
        apply decide_eq_true
        rintro rfl
        exact h cs hseg hc
      rw [hpath, hplain, hall]

/-- With further slashes the two mean the same where the plain walk breaks off before its last
component, or both walks fault. -/
theorem TreeInv.gap_same_iff (hi : TreeInv none v) (hp : ∀ d, parent = some d → d < v.count ∧ DenotesDir v d)
    (hz : 0 ∉ path) {cs : List (List Byte)} (hseg : segments path = some cs) (hgap : [] ∈ cs) :
    SameMeaning v parent path (plain path) ↔ pathToNode v parent (plain path) = some ⟨none, none⟩ ∨
      pathToNode v parent path = none ∧ pathToNode v parent (plain path) = none := by
  obtain ⟨s, t, ht, hpath, hplain⟩ := hi.walks_plain (fun d hd => (hp d hd).1) hz hseg
  constructor
  · intro h
    have hnode : (pathToNode v parent path).map PathToNode.result =
        (pathToNode v parent (plain path)).map PathToNode.result := h.node
    rcases hr : pathToNode v parent (plain path) with _ | ⟨q, _ | x⟩
    · rw [hr] at hnode
      exact .inr ⟨Option.map_eq_none_iff.mp hnode, rfl⟩
    · -- A new node could be made under the plain spelling only.
      cases q with
      | none => exact .inl rfl
      | some q =>
          have hmissing := hi.gap_missing ht hgap (hplain.symm.trans hr)
          have hcreated := hi.createdAt_isSome hp (zero_not_mem_plain hz) hr 0
          rw [← h.create 0, createdAt, Fs.vfsCreate, hpath, hmissing] at hcreated
          cases hcreated
    · rw [hr] at hnode
      obtain ⟨r, hr', hresult⟩ := Option.map_eq_some_iff.mp hnode
      obtain ⟨q', _⟩ := r
      cases hresult
      exact absurd (hpath.symm.trans hr') (hi.gap_not_found ht hgap x)
  · rintro (hr | ⟨hnone, hnone'⟩)
    · apply sameMeaning_of_eq
      rw [hr, hpath]
      exact hi.gap_missing ht hgap (hplain.symm.trans hr)
    · exact sameMeaning_of_eq (hnone.trans hnone'.symm)

/-- From a directory a path means what its plain spelling means exactly if it has no further
slashes, or the tree lacks a component before the last, or under both spellings a segment is
to be looked up in what is no directory. -/
theorem slash_spelling_iff (hv : VfsReaches v) (hp : ∀ d, parent = some d → d < v.count ∧ DenotesDir v d)
    (hz : 0 ∉ path) : SameMeaning v parent path (plain path) ↔
      SingleSlashes path ∨ PathMissing v parent (plain path) ∨
        ¬ PathWalkable v parent path ∧ ¬ PathWalkable v parent (plain path) := by
  have hi := hv.inv
  have hlt : ∀ d, parent = some d → d < v.count := fun d hd => (hp d hd).1
  by_cases hsingle : SingleSlashes path
  · exact iff_of_true (sameMeaning_of_eq (hsingle.pathToNode hi hlt hz)) (.inl hsingle)
  · obtain ⟨cs, hseg, hgap⟩ : ∃ cs, segments path = some cs ∧ [] ∈ cs := by
      unfold SingleSlashes at hsingle
      push Not at hsingle
      exact hsingle
    have hne : path ≠ [] := by
      rintro rfl
      cases hseg
    rw [or_iff_right hsingle, hi.gap_same_iff hp hz hseg hgap,
      hi.missing_iff hlt (zero_not_mem_plain hz) (plain_ne_nil hne), ← hi.returns_iff hlt hz,
      ← hi.returns_iff hlt (zero_not_mem_plain hz), Option.not_isSome_iff_eq_none, Option.not_isSome_iff_eq_none]

end Meaning

/-- Slashes in front and one at the end change nothing. -/
theorem outer_slashes_same : SameMeaning treeAB (some 0)
    (slash :: slash :: pathA ++ slash :: pathB ++ [slash]) (slash :: pathA ++ slash :: pathB) := by
  have hplain : plain (slash :: slash :: pathA ++ slash :: pathB ++ [slash]) = slash :: pathA ++ slash :: pathB := by
    decide
  have hdir : ∀ d, some 0 = some d → d < treeAB.count ∧ DenotesDir treeAB d := by
    rintro _ ⟨⟩
    exact ⟨by decide, 1, by decide, by decide⟩
  have hiff := @slash_spelling_iff treeAB (some 0) (slash :: slash :: pathA ++ slash :: pathB ++ [slash])
    treeAB_reached hdir (by decide)
  rw [← hplain]
  refine hiff.mpr (.inl fun cs hcs => ?_)
  have hseg : segments (slash :: slash :: pathA ++ slash :: pathB ++ [slash]) = some [pathA, pathB] := by decide
  cases hseg.symm.trans hcs
  decide

/-- Two slashes between "a" and "b": the file is not found. -/
theorem inner_slashes_not_same :
    VfsReaches treeAB ∧ plain (pathA ++ slash :: slash :: pathB) = pathA ++ slash :: pathB ∧
    getNode treeAB (some 0) (pathA ++ slash :: slash :: pathB) = some none ∧
    getNode treeAB (some 0) (pathA ++ slash :: pathB) = some (some 7) ∧
    ¬ SameMeaning treeAB (some 0) (pathA ++ slash :: slash :: pathB) (pathA ++ slash :: pathB) := by
  have hfar : getNode treeAB (some 0) (pathA ++ slash :: slash :: pathB) = some none := by decide +kernel
  have hnear : getNode treeAB (some 0) (pathA ++ slash :: pathB) = some (some 7) := by decide +kernel
  refine ⟨treeAB_reached, by decide, hfar, hnear, fun h => ?_⟩
  cases hfar.symm.trans (h.node.trans hnear)

end Flan.Fs
