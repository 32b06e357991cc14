import Mathlib.Data.List.Nodup
import Mathlib.Logic.Function.Basic

/-! Hash tables with chained buckets. A bucket starts with the entries it was
created with, and new keys are appended to its chain. -/
namespace Flan.Lib

/-- An entry of a chain. -/
structure Entry (κ α : Type) where
  key : κ
  val : α

section Chain
variable {κ α : Type} [DecidableEq κ]

/-- The value of the first entry with the key. -/
def chainGet : List (Entry κ α) → κ → Option α
  | [], _ => none
  | e :: c, k => if e.key = k then some e.val else chainGet c k

/-- Replaces the value of the first entry with the key; a new key goes to the
end. -/
def chainSet : List (Entry κ α) → κ → α → List (Entry κ α)
  | [], k, v => [⟨k, v⟩]
  | e :: c, k, v => if e.key = k then ⟨e.key, v⟩ :: c else e :: chainSet c k v

theorem chainGet_chainSet (c : List (Entry κ α)) (k k' : κ) (v : α) :
    chainGet (chainSet c k v) k' = if k' = k then some v else chainGet c k' := by
  induction c with
  | nil => simp only [chainSet, chainGet, eq_comm (a := k)]
  | cons e c ih =>
      by_cases he : e.key = k
      · rw [chainSet, if_pos he, chainGet, chainGet, he]
        by_cases hk : k' = k
        · rw [if_pos hk, if_pos hk.symm]
        · rw [if_neg hk, if_neg (Ne.symm hk), if_neg (Ne.symm hk)]
      · rw [chainSet, if_neg he, chainGet, chainGet, ih]
        by_cases hk : k' = k
        · rw [if_pos hk, if_pos hk, if_neg (fun h => he (h.trans hk))]
        · rw [if_neg hk, if_neg hk]

theorem chainSet_keys (c : List (Entry κ α)) (k : κ) (v : α) :
    (chainSet c k v).map Entry.key =
      if k ∈ c.map Entry.key then c.map Entry.key else c.map Entry.key ++ [k] := by
  induction c with
  | nil => rfl
  | cons e c ih =>
      by_cases he : e.key = k
      · rw [chainSet, if_pos he, if_pos (List.mem_map.mpr ⟨e, List.mem_cons_self, he⟩)]
        rfl
      · have hiff : k ∈ (e :: c).map Entry.key ↔ k ∈ c.map Entry.key := by
          rw [List.map_cons, List.mem_cons, or_iff_right (Ne.symm he)]
        rw [chainSet, if_neg he, List.map_cons, ih, if_congr hiff rfl rfl]
        split <;> rfl

theorem chainGet_of_mem {c : List (Entry κ α)} (hc : (c.map Entry.key).Nodup) {e : Entry κ α} (he : e ∈ c) :
    chainGet c e.key = some e.val := by
  induction c with
  | nil => exact nomatch he
  | cons x c ih =>
      rw [List.map_cons, List.nodup_cons] at hc
      rw [chainGet]
      rcases List.mem_cons.mp he with rfl | he
      · exact if_pos rfl
      · have hne : x.key ≠ e.key := fun h => hc.1 (h ▸ List.mem_map_of_mem he)
        rw [if_neg hne, ih hc.2 he]

theorem chainGet_eq_none {c : List (Entry κ α)} {k : κ} (h : k ∉ c.map Entry.key) : chainGet c k = none := by
  induction c with
  | nil => rfl
  | cons x c ih =>
      rw [List.map_cons, List.mem_cons, not_or] at h
      rw [chainGet, if_neg (Ne.symm h.1), ih h.2]

/-- Without one of its entries a chain of different keys misses that key only. -/
theorem chainGet_eraseIdx {l : List (Entry κ α)} (hc : (l.map Entry.key).Nodup) {i : Nat} {e : Entry κ α}
    (he : l[i]? = some e) (k : κ) :
    chainGet (l.eraseIdx i) k = if k = e.key then none else chainGet l k := by
  induction l generalizing i with
  | nil => exact nomatch he
  | cons x l ih =>
      rw [List.map_cons, List.nodup_cons] at hc
      cases i with
      | zero =>
          obtain rfl : x = e := Option.some.inj he
          rw [List.eraseIdx_cons_zero, chainGet]
          by_cases hk : k = x.key
          · rw [if_pos hk, chainGet_eq_none (hk ▸ hc.1)]
          · rw [if_neg hk, if_neg (Ne.symm hk)]
      | succ i =>
          rw [List.getElem?_cons_succ] at he
          have hne : x.key ≠ e.key := fun h => hc.1 (h ▸ List.mem_map_of_mem (List.mem_of_getElem? he))
          rw [List.eraseIdx_cons_succ, chainGet, chainGet, ih hc.2 he]
          by_cases hx : x.key = k
          · rw [if_pos hx, if_pos hx, if_neg (hx ▸ hne)]
          · rw [if_neg hx, if_neg hx]

end Chain

section Table
variable {κ α : Type} [DecidableEq κ]

/-- The buckets by number. -/
abbrev Buckets (κ α : Type) := Nat → List (Entry κ α)

def Buckets.get (b : Buckets κ α) (index : κ → Nat) (k : κ) : Option α := chainGet (b (index k)) k

def Buckets.set (b : Buckets κ α) (index : κ → Nat) (k : κ) (v : α) : Buckets κ α :=
  Function.update b (index k) (chainSet (b (index k)) k v)

/-- Keys of one bucket do not disturb each other, whatever the hash. -/
theorem Buckets.get_set (b : Buckets κ α) (index : κ → Nat) (k k' : κ) (v : α) :
    (b.set index k v).get index k' = if k' = k then some v else b.get index k' := by
  rw [Buckets.get, Buckets.set]
  by_cases hi : index k' = index k
  · rw [hi, Function.update_self, chainGet_chainSet, Buckets.get, hi]
  · rw [Function.update_of_ne hi, if_neg (fun h => hi (congrArg index h)), Buckets.get]

/-- The same for the table the chain is in. -/
theorem Buckets.get_eraseIdx (b : Buckets κ α) {index : κ → Nat} {i : Nat} {e : Entry κ α}
    (hc : ((b (index e.key)).map Entry.key).Nodup) (he : (b (index e.key))[i]? = some e) (k : κ) :
    Buckets.get (Function.update b (index e.key) ((b (index e.key)).eraseIdx i)) index k =
      if k = e.key then none else b.get index k := by
  rw [Buckets.get]
  by_cases hi : index k = index e.key
  · rw [hi, Function.update_self, chainGet_eraseIdx hc he, Buckets.get, hi]
  · rw [Function.update_of_ne hi, if_neg (fun h => hi (congrArg index h)), Buckets.get]

end Table
end Flan.Lib
