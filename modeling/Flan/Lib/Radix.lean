import Mathlib.Data.List.Basic
import Mathlib.Data.Option.Basic
import Mathlib.Logic.Function.Basic

/-! Radix trees of tables over arbitrary node identities. A path of indices is
followed from table to table, and its last index names a cell of the table
reached. Tables stand on levels: a table of level `n` is entered by paths of
`n` indices. -/
namespace Flan.Lib
variable {α ι β : Type*} {child child' : α → ι → Option α} {leaf leaf' : α → ι → β} {d v : β}
  {lev : α → Nat} {x y p a c : α} {i j k : ι} {is ks : List ι}

/-- The cell that a path leads to, if every table on the way is there. -/
def reach (child : α → ι → Option α) : α → List ι → Option (α × ι)
  | _, [] => none
  | x, [j] => some (x, j)
  | x, i :: k :: is => (child x i).bind fun y => reach child y (k :: is)

/-- What the cell holds, or the default where a table is missing. -/
def lookup (child : α → ι → Option α) (leaf : α → ι → β) (d : β) (x : α) (is : List ι) : β :=
  match reach child x is with
  | none => d
  | some p => leaf p.1 p.2

/-- Every child stands one level below its parent. -/
def Levelled (child : α → ι → Option α) (lev : α → Nat) : Prop :=
  ∀ x i y, 2 ≤ lev x → child x i = some y → lev y + 1 = lev x

/-- No two cells of one level have the same child, except that the cells `S` of
level `n` may stand in several tables. -/
def Unshared (child : α → ι → Option α) (lev : α → Nat) (n : Nat) (S : ι → Prop) : Prop :=
  ∀ x i x' i' y, 2 ≤ lev x → lev x = lev x' → child x i = some y → child x' i' = some y →
    i = i' ∧ (x = x' ∨ lev x = n ∧ S i)

theorem Levelled.child_pos (hl : Levelled child lev) (hx : 2 ≤ lev x) (hy : child x i = some y) :
    lev y ≠ 0 := by
  have := hl x i y hx hy
  omega

theorem reach_cons (h : is ≠ []) : reach child x (i :: is) =
    (child x i).bind fun y => reach child y is := by
  cases is with
  | nil => exact absurd rfl h
  | cons k is => rfl

theorem lookup_nil : lookup child leaf d x [] = d := rfl

/-- A path that is `k` indices short of the full length ends `k` levels higher. -/
theorem reach_level {k : Nat} (hl : Levelled child lev) (hx : lev x = is.length + k)
    (hr : reach child x is = some (p, j)) : lev p = k + 1 := by
  induction is generalizing x with
  | nil => cases hr
  | cons i is ih =>
      cases is with
      | nil =>
          cases hr
          rw [hx, List.length_singleton, Nat.add_comm]
      | cons i₂ is =>
          obtain ⟨y, hy, hrest⟩ := Option.bind_eq_some_iff.mp hr
          rw [List.length_cons] at hx
          have hlev := hl x i y (by rw [hx, List.length_cons]; omega) hy
          exact ih (by omega) hrest

/-- The tables above the last level decide where paths lead. -/
theorem reach_congr {k : Nat} (hl : Levelled child lev)
    (hkeep : ∀ x j, 2 ≤ lev x → child' x j = child x j)
    (hx : lev x = is.length + k) : reach child' x is = reach child x is := by
  induction is generalizing x with
  | nil => rfl
  | cons i is ih =>
      cases is with
      | nil => rfl
      | cons i₂ is =>
          rw [List.length_cons] at hx
          have htwo : 2 ≤ lev x := by rw [hx, List.length_cons]; omega
          rw [reach_cons (by simp), reach_cons (by simp), hkeep x i htwo]
          cases hy : child x i with
          | none => rfl
          | some y =>
              have hlev := hl x i y htwo hy
              exact ih (by omega)

theorem lookup_congr (hl : Levelled child lev) (hkeep : ∀ x k, 2 ≤ lev x → child' x k = child x k)
    (hleaf : ∀ x k, lev x = 1 → leaf' x k = leaf x k) (hx : lev x = is.length) :
    lookup child' leaf' d x is = lookup child leaf d x is := by
  rw [lookup, lookup, reach_congr (k := 0) hl hkeep hx]
  cases hr : reach child x is with
  | none => rfl
  | some q => exact hleaf q.1 q.2 (reach_level (k := 0) hl hx hr)

/-- Where cells have only been emptied, a path holds what it did or nothing. -/
theorem lookup_cleared (hl : Levelled child lev)
    (hkeep : ∀ x k, 2 ≤ lev x → child' x k = child x k ∨ child' x k = none)
    (hleaf : ∀ x k, lev x = 1 → leaf' x k = leaf x k ∨ leaf' x k = d) (hx : lev x = is.length) :
    lookup child' leaf' d x is = lookup child leaf d x is ∨ lookup child' leaf' d x is = d := by
  induction is generalizing x with
  | nil => exact .inl rfl
  | cons i is ih =>
      cases is with
      | nil => exact hleaf x i hx
      | cons k is =>
          have htwo : 2 ≤ lev x := by rw [hx, List.length_cons, List.length_cons]; omega
          rw [lookup, lookup, reach_cons (by simp), reach_cons (by simp)]
          rcases hkeep x i htwo with heq | hnone
          · rw [heq]
            cases hy : child x i with
            | none => exact .inl rfl
            | some y =>
                have hlev := hl x i y htwo hy
                simp only [List.length_cons] at hx ih
                exact ih (by omega)
          · rw [hnone]
            exact .inr rfl

/-- Writing one cell changes exactly the paths that lead to it. -/
theorem lookup_write [DecidableEq α] [DecidableEq ι] (hl : Levelled child lev)
    (hkeep : ∀ x k, 2 ≤ lev x → child' x k = child x k) (hv : leaf' p j = v)
    (hleaf : ∀ x k, lev x = 1 → ¬ (x = p ∧ k = j) → leaf' x k = leaf x k)
    (hx : lev x = is.length) : lookup child' leaf' d x is =
      if reach child x is = some (p, j) then v else lookup child leaf d x is := by
  rw [lookup, lookup, reach_congr (k := 0) hl hkeep hx]
  cases hr : reach child x is with
  | none => rfl
  | some q =>
      by_cases hq : q = (p, j)
      · rw [hq, if_pos rfl]
        exact hv
      · rw [if_neg fun h => hq (Option.some.inj h)]
        exact hleaf q.1 q.2 (reach_level (k := 0) hl hx hr) fun h => hq (Prod.ext h.1 h.2)

/-- A table is hung into an empty cell: its own cells are all empty. -/
structure Hangs (child child' : α → ι → Option α) (leaf leaf' : α → ι → β) (d : β) (lev : α → Nat)
    (a : α) (i : ι) (c : α) : Prop where
  absent : child a i = none
  here : child' a i = some c
  keep : ∀ x k, 2 ≤ lev x → ¬ (x = a ∧ k = i) → child' x k = child x k
  leaves : ∀ x k, lev x = 1 → leaf' x k = leaf x k
  blank : ∀ k, child' c k = none
  empty : ∀ k, leaf' c k = d

theorem Hangs.reach_new (hh : Hangs child child' leaf leaf' d lev a i c) {q : α × ι}
    (hr : reach child' c is = some q) : leaf' q.1 q.2 = d := by
  cases is with
  | nil => cases hr
  | cons k is =>
      cases is with
      | nil =>
          cases hr
          exact hh.empty k
      | cons k' is =>
          rw [reach_cons (by simp), hh.blank] at hr
          cases hr

/-- Growing the tree changes what no path holds. -/
theorem Hangs.lookup_eq (hh : Hangs child child' leaf leaf' d lev a i c) (hl : Levelled child lev)
    (hx : lev x = is.length) : lookup child' leaf' d x is = lookup child leaf d x is := by
  classical
  induction is generalizing x with
  | nil => rfl
  | cons k is ih =>
      cases is with
      | nil => exact hh.leaves x k hx
      | cons k' is =>
          have htwo : 2 ≤ lev x := by rw [hx]; simp
          rw [lookup, lookup, reach_cons (by simp), reach_cons (by simp)]
          by_cases hcell : x = a ∧ k = i
          · rw [hcell.1, hcell.2, hh.absent, hh.here, Option.bind_some, Option.bind_none]
            cases hr : reach child' c (k' :: is) with
            | none => rfl
            | some q => exact hh.reach_new hr
          · rw [hh.keep x k htwo hcell]
            cases hy : child x k with
            | none => rfl
            | some y =>
                have hlev := hl x k y htwo hy
                rw [hx, List.length_cons] at hlev
                exact ih (Nat.add_right_cancel hlev)

/-- Two paths of one length to one cell are the same path, from the same table
or through a cell that may be shared. -/
theorem reach_inj {S : ι → Prop} {n k : Nat} (hl : Levelled child lev) (hu : Unshared child lev n S)
    (hx : lev x = is.length + k) (hy : lev y = ks.length + k) (hlen : is.length = ks.length)
    (hn : is.length + k ≤ n) {q : α × ι} (hr : reach child x is = some q)
    (hr' : reach child y ks = some q) :
    is = ks ∧ (x = y ∨ is.length + k = n ∧ ∃ i, is.head? = some i ∧ S i) := by
  induction is generalizing x y ks with
  | nil => cases hr
  | cons i is ih =>
      cases ks with
      | nil => cases hr'
      | cons j ks =>
          simp only [List.length_cons, Nat.add_right_cancel_iff] at hlen hx hy hn
          cases is with
          | nil =>
              have hks : ks = [] := List.length_eq_zero_iff.mp hlen.symm
              subst hks
              cases hr
              cases hr'
              exact ⟨rfl, .inl rfl⟩
          | cons i₂ is =>
              have hne : ks ≠ [] := by
                rintro rfl
                cases hlen
              rw [reach_cons (by simp)] at hr
              rw [reach_cons hne] at hr'
              obtain ⟨z, hz, hrest⟩ := Option.bind_eq_some_iff.mp hr
              obtain ⟨z', hz', hrest'⟩ := Option.bind_eq_some_iff.mp hr'
              have hpos : 0 < (i₂ :: is).length := Nat.succ_pos _
              have hlz := hl x i z (by omega) hz
              have hlz' := hl y j z' (by omega) hz'
              obtain ⟨hpath, hsame⟩ := ih (by omega) (by omega) hlen (by omega) hrest hrest'
              -- Below the top the tables are the same, so their parents are.
              have hzz : z = z' := hsame.resolve_right fun h => by omega
              subst hzz
              obtain ⟨hij, hxy⟩ := hu x i y j z (by omega) (by omega) hz hz'
              refine ⟨by rw [hij, hpath], hxy.imp id fun h => ⟨?_, i, rfl, h.2⟩⟩
              rw [List.length_cons]
              omega

/-! ### Cells of every level -/

/-- What the cell at the end of a path of any length holds. -/
def cellAt (child : α → ι → Option α) (leaf : α → ι → β) (x : α) (is : List ι) : Option β :=
  (reach child x is).map fun q => leaf q.1 q.2

/-- If no cell on the way has changed, the path leads to what it led to. -/
theorem cellAt_eq (h : ∀ ks q, ks <+: is → reach child x ks = some q →
    child' q.1 q.2 = child q.1 q.2 ∧ leaf' q.1 q.2 = leaf q.1 q.2) :
    cellAt child' leaf' x is = cellAt child leaf x is := by
  induction is generalizing x with
  | nil => rfl
  | cons i is ih =>
      obtain ⟨hchild, hleaf⟩ := h [i] (x, i) (by simp) rfl
      cases is with
      | nil => exact congrArg some hleaf
      | cons i₂ is =>
          rw [cellAt, cellAt, reach_cons (by simp), reach_cons (by simp), hchild]
          cases hy : child x i with
          | none => rfl
          | some y =>
              refine ih fun ks q hks hreach => ?_
              have hne : ks ≠ [] := by
                rintro rfl
                cases hreach
              refine h (i :: ks) q ((List.prefix_cons_inj i).mpr hks) ?_
              rw [reach_cons hne, hy]
              exact hreach

/-! ### Walks that read one cell at a time -/

/-- The path leads from table to table, all of them there. -/
def Leads (child : α → ι → Option α) : α → List ι → α → Prop
  | x, [], y => x = y
  | x, i :: is, y => ∃ z, child x i = some z ∧ Leads child z is y

theorem Leads.snoc (h : Leads child x is y) (hy : child y i = some c) : Leads child x (is ++ [i]) c := by
  induction is generalizing x with
  | nil =>
      cases h
      exact ⟨c, hy, rfl⟩
  | cons j is ih =>
      obtain ⟨z, hz, hrest⟩ := h
      exact ⟨z, hz, ih hrest⟩

theorem Leads.lookup_eq (h : Leads child x is y) (hks : ks ≠ []) :
    lookup child leaf d x (is ++ ks) = lookup child leaf d y ks := by
  induction is generalizing x with
  | nil =>
      cases h
      rfl
  | cons j is ih =>
      obtain ⟨z, hz, hrest⟩ := h
      rw [← ih hrest, List.cons_append, lookup, reach_cons (by simp [hks]), hz]
      rfl

/-- A way above the last level stays where no child is taken away. -/
theorem Leads.mono (hl : Levelled child lev)
    (hkeep : ∀ x i c, 2 ≤ lev x → child x i = some c → child' x i = some c)
    (hx : is.length < lev x) (h : Leads child x is y) : Leads child' x is y := by
  induction is generalizing x with
  | nil => exact h
  | cons j is ih =>
      obtain ⟨z, hz, hrest⟩ := h
      rw [List.length_cons] at hx
      have hlev := hl x j z (by omega) hz
      exact ⟨z, hkeep x j z (by omega) hz, ih (by omega) hrest⟩

/-- A walk on its way, with the indices it has not used, or at its end. -/
inductive Walker (α ι β : Type*) where
  | underway (x : α) (is : List ι)
  | ended (v : β)
deriving DecidableEq

/-- One read of a cell. -/
def Walker.read (child : α → ι → Option α) (leaf : α → ι → β) (d : β) : Walker α ι β → Walker α ι β
  | .underway _ [] => .ended d
  | .underway x [i] => .ended (leaf x i)
  | .underway x (i :: k :: is) =>
      match child x i with
      | none => .ended d
      | some y => .underway y (k :: is)
  | .ended v => .ended v

/-- The walk from `root` has come to where its indices lead. -/
def Walker.Follows (child : α → ι → Option α) (root : α) (path : List ι) : Walker α ι β → Prop
  | .underway x is => is ≠ [] ∧ ∃ used, path = used ++ is ∧ Leads child root used x
  | .ended _ => True

section Walks
variable {root : α} {path : List ι} {w : Walker α ι β}

theorem Walker.Follows.read (h : w.Follows child root path) :
    (w.read child leaf d).Follows child root path := by
  fun_cases Walker.read child leaf d w with
  | case1 => trivial
  | case2 => trivial
  | case3 => trivial
  | case4 x i k is y hy =>
      obtain ⟨-, used, hpath, hleads⟩ := h
      refine ⟨by simp, used ++ [i], ?_, hleads.snoc hy⟩
      rw [hpath, List.append_assoc]
      rfl
  | case5 => trivial

/-- The tables above a walk do not change, whatever is added to the tree. -/
theorem Walker.Follows.mono (hl : Levelled child lev)
    (hkeep : ∀ x i c, 2 ≤ lev x → child x i = some c → child' x i = some c)
    (hroot : lev root = path.length) (h : w.Follows child root path) : w.Follows child' root path := by
  cases w with
  | ended v => trivial
  | underway x is =>
      obtain ⟨hne, used, hpath, hleads⟩ := h
      have hpos := List.length_pos_of_ne_nil hne
      rw [hpath, List.length_append] at hroot
      exact ⟨hne, used, hpath, hleads.mono hl hkeep (by omega)⟩

/-- The read that ends a walk finds what the whole path holds at that moment. -/
theorem Walker.Follows.ends (h : (Walker.underway x is : Walker α ι β).Follows child root path)
    (hr : (Walker.underway x is).read child leaf d = .ended v) : v = lookup child leaf d root path := by
  obtain ⟨hne, used, rfl, hleads⟩ := h
  rw [hleads.lookup_eq hne]
  cases is with
  | nil => exact absurd rfl hne
  | cons i is =>
      cases is with
      | nil =>
          cases hr
          rfl
      | cons k is =>
          rw [lookup, reach_cons (by simp)]
          cases hy : child x i with
          | none =>
              simp only [Walker.read, hy] at hr
              cases hr
              rfl
          | some y =>
              simp only [Walker.read, hy] at hr
              cases hr

end Walks

/-! ### New tables -/

section Growth
variable [DecidableEq α] {S : ι → Prop} {n : Nat}

theorem Hangs.levelled (hh : Hangs child child' leaf leaf' d lev a i c) (hl : Levelled child lev)
    (hc : lev c = 0) (ha : 2 ≤ lev a) :
    Levelled child' (Function.update lev c (lev a - 1)) := by
  intro x k y hx hy
  have hxc : x ≠ c := by
    rintro rfl
    rw [hh.blank] at hy
    cases hy
  rw [Function.update_of_ne hxc] at hx ⊢
  by_cases hcell : x = a ∧ k = i
  · obtain ⟨rfl, rfl⟩ := hcell
    rw [hh.here] at hy
    cases hy
    rw [Function.update_self]
    omega
  · rw [hh.keep x k hx hcell] at hy
    have hyc : y ≠ c := fun h : y = c => hl.child_pos hx hy (h ▸ hc)
    rw [Function.update_of_ne hyc]
    exact hl x k y hx hy

theorem Hangs.unshared (hh : Hangs child child' leaf leaf' d lev a i c) (hl : Levelled child lev)
    (hu : Unshared child lev n S) (hc : lev c = 0) (ha : 2 ≤ lev a) :
    Unshared child' (Function.update lev c (lev a - 1)) n S := by
  -- The new table has no children, and its own cell is its only place.
  have hold : ∀ x k y, 2 ≤ Function.update lev c (lev a - 1) x → child' x k = some y →
      2 ≤ lev x ∧ Function.update lev c (lev a - 1) x = lev x ∧
        (x = a ∧ k = i ∧ y = c ∨ child x k = some y ∧ y ≠ c) := by
    intro x k y hx hy
    have hxc : x ≠ c := by
      rintro rfl
      rw [hh.blank] at hy
      cases hy
    rw [Function.update_of_ne hxc] at hx
    refine ⟨hx, Function.update_of_ne hxc .., ?_⟩
    by_cases hcell : x = a ∧ k = i
    · obtain ⟨rfl, rfl⟩ := hcell
      rw [hh.here] at hy
      cases hy
      exact .inl ⟨rfl, rfl, rfl⟩
    · rw [hh.keep x k hx hcell] at hy
      exact .inr ⟨hy, fun h : y = c => hl.child_pos hx hy (h ▸ hc)⟩
  intro x k x' k' y hx hxx hy hy'
  obtain ⟨htwo, hlev, hplace⟩ := hold x k y hx hy
  obtain ⟨_, hlev', hplace'⟩ := hold x' k' y (hxx ▸ hx) hy'
  rw [hlev, hlev'] at hxx
  rw [hlev]
  rcases hplace with ⟨rfl, rfl, rfl⟩ | ⟨hy, hyc⟩
  · rcases hplace' with ⟨rfl, rfl, -⟩ | ⟨_, hne⟩
    · exact ⟨rfl, .inl rfl⟩
    · exact absurd rfl hne
  · rcases hplace' with ⟨-, -, rfl⟩ | ⟨hy', _⟩
    · exact absurd rfl hyc
    · exact hu x k x' k' y htwo hxx hy hy'

/-- A table becomes a new root; the children it starts with are copies of
cells `S` of other roots. -/
structure Roots (child child' : α → ι → Option α) (lev : α → Nat) (n : Nat) (S : ι → Prop) (c : α) :
    Prop where
  keep : ∀ x k, 2 ≤ lev x → child' x k = child x k
  copy : ∀ k y, child' c k = some y → S k ∧ ∃ r, lev r = n ∧ child r k = some y

theorem Roots.levelled (hh : Roots child child' lev n S c) (hl : Levelled child lev)
    (hc : lev c = 0) (hn : 2 ≤ n) : Levelled child' (Function.update lev c n) := by
  intro x k y hx hy
  have hstep : ∃ r, lev r = Function.update lev c n x ∧ 2 ≤ lev r ∧ child r k = some y := by
    by_cases hxc : x = c
    · subst hxc
      obtain ⟨_, r, hr, hry⟩ := hh.copy k y hy
      exact ⟨r, by rw [Function.update_self, hr], hr ▸ hn, hry⟩
    · rw [Function.update_of_ne hxc] at hx ⊢
      exact ⟨x, rfl, hx, hh.keep x k hx ▸ hy⟩
  obtain ⟨r, hr, htwo, hry⟩ := hstep
  have hyc : y ≠ c := fun h : y = c => hl.child_pos htwo hry (h ▸ hc)
  rw [Function.update_of_ne hyc, ← hr]
  exact hl r k y htwo hry

theorem Roots.unshared (hh : Roots child child' lev n S c) (hu : Unshared child lev n S)
    (hn : 2 ≤ n) : Unshared child' (Function.update lev c n) n S := by
  -- Every cell has the child of some cell of the old tables at the same index.
  have hold : ∀ x k y, 2 ≤ Function.update lev c n x → child' x k = some y →
      ∃ r, lev r = Function.update lev c n x ∧ 2 ≤ lev r ∧ child r k = some y ∧
        (x = r ∨ Function.update lev c n x = n ∧ S k) := by
    intro x k y hx hy
    by_cases hxc : x = c
    · subst hxc
      obtain ⟨hs, r, hr, hry⟩ := hh.copy k y hy
      rw [Function.update_self]
      exact ⟨r, hr, hr ▸ hn, hry, .inr ⟨rfl, hs⟩⟩
    · rw [Function.update_of_ne hxc] at hx ⊢
      exact ⟨x, rfl, hx, hh.keep x k hx ▸ hy, .inl rfl⟩
  intro x k x' k' y hx hxx hy hy'
  obtain ⟨r, hr, htwo, hry, hxr⟩ := hold x k y hx hy
  obtain ⟨r', hr', _, hry', hxr'⟩ := hold x' k' y (hxx ▸ hx) hy'
  obtain ⟨hk, hsame⟩ := hu r k r' k' y htwo (by rw [hr, hr', hxx]) hry hry'
  subst hk
  refine ⟨rfl, ?_⟩
  rcases hxr with rfl | hs
  · rcases hxr' with rfl | hs'
    · exact hsame.imp id fun h => ⟨hr ▸ h.1, h.2⟩
    · exact .inr ⟨hxx ▸ hs'.1, hs'.2⟩
  · exact .inr hs

end Growth
end Flan.Lib
