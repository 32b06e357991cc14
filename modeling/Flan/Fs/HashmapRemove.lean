import Flan.Fs.Hashmap

/-! `hashmap_remove` of `lib/hashmap.c`. Its loop stops at an entry whose key has the
right length and is not the key. -/
namespace Flan.Fs.Chained
open Flan.Lib

/-- What `kheap_free` is called with: the entry at a place of the bucket as it was, or its
key. Behind the bucket is `NULL`. -/
inductive Freed where
  | entry (place : Nat)
  | key (place : Nat)
  deriving DecidableEq

section Functions
variable {α : Type}

/-- The loop of `hashmap_remove`. -/
def findOther (key : List Byte) : List (HashmapEntry α) → Option Nat
  | [] => none
  | e :: rest =>
      if key.length = e.keyLength ∧ memcmp e.key key key.length ≠ 0 then some 0
      else (findOther key rest).map (· + 1)

/-- `hashmap->items--`. -/
def oneLess (items : Nat) : Nat := if items = 0 then 2 ^ 64 - 1 else items - 1

/-- The bucket without the entry at a place, `prev->next = entry->next`. -/
def HashmapT.unlink (h : HashmapT α) (index place : Nat) : HashmapT α :=
  { h with
    entries := Function.update h.entries index ((h.entries index).eraseIdx place)
    items := oneLess h.items }

/-- `hashmap_remove`; reading `entry->next` of the entry `NULL` has no result. -/
def hashmapRemove (h : HashmapT α) (key : List Byte) : Option (Bool × HashmapT α × List Freed) :=
  let index := h.index key
  let bucket := h.entries index
  match findOther key bucket with
  | none => none
  | some 0 =>
      -- The entry of the table takes over the first of the chain and frees the one behind it.
      if 1 < bucket.length then
        some (true, { h with entries := Function.update h.entries index bucket.tail, items := oneLess h.items },
          [.entry 2])
      else some (true, { h with items := oneLess h.items }, [])
  | some (i+1) => some (true, h.unlink index (i + 1), [.entry (i + 1), .key (i + 1)])

/-! ### The entry that is taken out -/

/-- Another key of the same length. -/
def SameLength (key : List Byte) (e : HashmapEntry α) : Prop := e.key.length = key.length ∧ e.key ≠ key

instance (key : List Byte) : DecidablePred (@SameLength α key) := fun _ => instDecidableAnd

theorem other_matches {e : HashmapEntry α} (he : e.keyLength = e.key.length) (key : List Byte) :
    (key.length = e.keyLength ∧ memcmp e.key key key.length ≠ 0) ↔ SameLength key e := by
  rw [he, SameLength, eq_comm]
  exact and_congr_right fun hl => not_congr (memcmp_eq_zero hl)

theorem findOther_eq {c : List (HashmapEntry α)} (hc : Measured c) (key : List Byte) :
    findOther key c = c.findIdx? fun e => SameLength key e := by
  induction c with
  | nil => rfl
  | cons e c ih =>
      rw [findOther, List.findIdx?_cons, ih fun x hx => hc x (List.mem_cons_of_mem e hx),
        if_congr (other_matches (hc e List.mem_cons_self) key) rfl rfl]
      simp only [decide_eq_true_eq]

theorem findEntry_isSome {c : List (HashmapEntry α)} (hc : Measured c) (key : List Byte) :
    (findEntry key c).isSome ↔ ∃ e ∈ c, e.key = key := by
  induction c with
  | nil => simp [findEntry]
  | cons e c ih =>
      rw [findEntry_cons (hc e List.mem_cons_self), List.exists_mem_cons_iff,
        ← ih fun x hx => hc x (List.mem_cons_of_mem e hx)]
      by_cases he : e.key = key
      · rw [if_pos he]
        exact iff_of_true rfl (.inl he)
      · rw [if_neg he, Option.isSome_map, or_iff_right he]

section Table
variable {h : HashmapT α} {key : List Byte}

/-- The entry in the table has the empty key, so that another key is in the chain. -/
theorem TableInv.present_iff (hi : TableInv h) (hkey : key ≠ []) :
    (hashmapEntryGet h key).isSome ↔ ∃ e ∈ h.chain (h.index key), e.key = key := by
  obtain ⟨e₀, c₀, hc₀, he₀⟩ := hi.head (h.index key)
  rw [hashmapEntryGet, findEntry_isSome (hi.measured _), HashmapT.chain, hc₀, List.tail_cons, List.exists_mem_cons_iff,
    or_iff_right (he₀ ▸ hkey.symm)]

/-- A chained entry is what `hashmap_get` finds. -/
theorem TableInv.get_chained (hi : TableInv h) {i : Nat} {e : HashmapEntry α} (he : e ∈ h.chain i) :
    hashmapGet h e.key = e.val := by
  have hindex := hi.bucket i e he
  have hd := hi.distinct i
  rw [keys_eq] at hd
  rw [hashmapGet_buckets hi, Buckets.get, hindex]
  have hget := chainGet_of_mem hd (List.mem_map_of_mem (List.mem_of_mem_tail he))
  exact congrArg Option.join hget

theorem unlink_self (h : HashmapT α) (index place : Nat) :
    (h.unlink index place).entries index = (h.entries index).eraseIdx place := Function.update_self _ _ _

theorem unlink_of_ne (h : HashmapT α) {index j : Nat} (place : Nat) (hj : j ≠ index) :
    (h.unlink index place).entries j = h.entries j := Function.update_of_ne hj _ _

theorem TableInv.unlink (hi : TableInv h) (index i : Nat) : TableInv (h.unlink index (i + 1)) := by
  obtain ⟨e₀, c₀, hc₀, he₀⟩ := hi.head index
  constructor
  case measured =>
    intro j
    by_cases hj : j = index
    · rw [hj, unlink_self]
      exact fun e he => hi.measured index e (List.mem_of_mem_eraseIdx he)
    · rw [unlink_of_ne h _ hj]
      exact hi.measured j
  case head =>
    intro j
    by_cases hj : j = index
    · rw [hj, unlink_self, hc₀, List.eraseIdx_cons_succ]
      exact ⟨_, _, rfl, he₀⟩
    · rw [unlink_of_ne h _ hj]
      exact hi.head j
  case distinct =>
    intro j
    by_cases hj : j = index
    · rw [hj, unlink_self]
      exact (hi.distinct index).sublist ((List.eraseIdx_sublist _ _).map _)
    · rw [unlink_of_ne h _ hj]
      exact hi.distinct j
  case bucket =>
    intro j e he
    apply hi.bucket j e
    rw [HashmapT.chain] at he
    by_cases hj : j = index
    · rw [hj, unlink_self, hc₀, List.eraseIdx_cons_succ, List.tail_cons] at he
      rw [HashmapT.chain, hj, hc₀]
      exact List.mem_of_mem_eraseIdx he
    · rwa [unlink_of_ne h _ hj] at he

theorem unlink_buckets (h : HashmapT α) (index place : Nat) :
    (h.unlink index place).buckets =
      Function.update h.buckets index ((h.buckets index).eraseIdx place) := by
  funext j
  by_cases hj : j = index
  · rw [hj, HashmapT.buckets, unlink_self, Function.update_self, ← List.eraseIdx_map]
    rfl
  · rw [HashmapT.buckets, unlink_of_ne h _ hj, Function.update_of_ne hj]
    rfl

/-- The removed entry is missing, and no other. -/
theorem hashmapGet_remove (hi : TableInv h) {index i : Nat} {e : HashmapEntry α}
    (he : (h.chain index)[i]? = some e) :
    hashmapGet (h.unlink index (i + 1)) = Function.update (hashmapGet h) e.key none := by
  obtain rfl := hi.bucket index e (List.mem_of_getElem? he)
  have hd := hi.distinct (h.index e.key)
  rw [keys_eq] at hd
  have hplace : (h.buckets (h.index e.key))[i + 1]? = some e.toEntry := by
    rw [HashmapT.chain, List.getElem?_tail] at he
    rw [HashmapT.buckets, List.getElem?_map, he, Option.map_some]
  funext k
  rw [hashmapGet_buckets (hi.unlink _ i), unlink_buckets, Function.update_apply, hashmapGet_buckets hi]
  have hget := @Buckets.get_eraseIdx _ _ _ h.buckets h.index (i + 1) e.toEntry hd hplace k
  refine (congrArg Option.join hget).trans ?_
  exact apply_ite Option.join _ _ _

/-- `hashmap_remove` of a key that is not empty: the first chained entry with another key of
its length goes. -/
theorem hashmapRemove_eq (hi : TableInv h) (hkey : key ≠ []) :
    hashmapRemove h key =
      ((h.chain (h.index key)).findIdx? fun e => SameLength key e).map fun i =>
        (true, h.unlink (h.index key) (i + 1), [.entry (i + 1), .key (i + 1)]) := by
  obtain ⟨e₀, c₀, hc₀, he₀⟩ := hi.head (h.index key)
  have hfirst : ¬SameLength key e₀ := by
    rintro ⟨hl, -⟩
    rw [he₀, List.length_nil] at hl
    exact hkey (List.length_eq_zero_iff.mp hl.symm)
  have hfind : findOther key (h.entries (h.index key)) =
      ((h.chain (h.index key)).findIdx? fun e => SameLength key e).map (· + 1) := by
    rw [findOther_eq (hi.measured _), HashmapT.chain, hc₀, List.findIdx?_cons, decide_eq_false hfirst]
    rfl
  dsimp only [hashmapRemove]
  rw [hfind]
  cases (h.chain (h.index key)).findIdx? fun e => SameLength key e with
  | none => rfl
  | some i => rfl

end Table

/-! ### Whole sequences of calls -/

/-- The tables that calls of `hashmap_set` make, with or without room for a new entry. -/
inductive Reached : HashmapT α → Prop
  | create {entryCount : Nat} (hfits : entryCount * sizeofHashmapEntry < 2 ^ 64) : 1 ≤ entryCount →
      Reached (hashmapCreate entryCount hfits)
  | set {h : HashmapT α} (key : List Byte) (val : Option α) (calloc : Bool) :
      Reached h → Reached (hashmapSet h key val calloc).2

/-- Without room for a new entry the call changes a value or nothing. -/
theorem hashmapSet_full (h : HashmapT α) (key : List Byte) (val : Option α) :
    (hashmapSet h key val false).2 = h ∨
      hashmapSet h key val false = hashmapSet h key val true := by
  unfold hashmapSet
  cases hashmapEntryGet h key with
  | none => exact .inl rfl
  | some i => exact .inr rfl

/-- An entry in a chain has been counted. -/
def Counted (h : HashmapT α) : Prop := ∀ i, 1 < (h.entries i).length → 1 ≤ h.items

theorem Counted.set {h : HashmapT α} (hc : Counted h) (key : List Byte) (val : Option α) :
    Counted (hashmapSet h key val true).2 := by
  intro i hlen
  unfold hashmapSet at hlen ⊢
  cases hf : hashmapEntryGet h key with
  | none => exact Nat.le_add_left 1 h.items
  | some n =>
      apply hc i
      rw [hf] at hlen
      change 1 < (Function.update h.entries _ _ i).length at hlen
      by_cases hi : i = h.index key
      · rwa [hi, Function.update_self, List.length_modify, ← hi] at hlen
      · rwa [Function.update_of_ne hi] at hlen

structure ReachedInv (h : HashmapT α) : Prop where
  table : TableInv h
  counted : Counted h

theorem Reached.inv {h : HashmapT α} (hr : Reached h) : ReachedInv h := by
  induction hr with
  | create hfits _ => exact ⟨.create hfits, fun i hlen => absurd hlen (lt_irrefl 1)⟩
  | set key val calloc hr ih =>
      have hroom : ReachedInv (hashmapSet _ key val true).2 := ⟨ih.table.set key val, ih.counted.set key val⟩
      cases calloc with
      | true => exact hroom
      | false =>
          rcases hashmapSet_full _ key val with hsame | hset
          · rwa [hsame]
          · rwa [hset]

theorem Reached.setAll {h : HashmapT α} (hr : Reached h) (sets : List (List Byte × Option α)) :
    Reached (setAll h sets) := by
  induction sets generalizing h with
  | nil => exact hr
  | cons c sets ih => exact ih (hr.set c.1 c.2 true)

/-- What `hashmap_remove` is for. -/
def RemovesExactly (h : HashmapT α) (key : List Byte) : Prop :=
  ∃ h' freed, hashmapRemove h key = some (true, h', freed) ∧
    if (hashmapEntryGet h key).isSome then
      hashmapGet h' key = none ∧ (∀ k, k ≠ key → hashmapGet h' k = hashmapGet h k) ∧ h'.items + 1 = h.items
    else hashmapGet h' = hashmapGet h ∧ h'.items = h.items

/-- `hashmap_remove` is right only for a key and another key of its length whose values are
both `NULL`, so that it does not show which of them is gone. -/
theorem hashmap_remove_exact_iff {h : HashmapT α} (hr : Reached h) {key : List Byte} (hkey : key ≠ []) :
    RemovesExactly h key ↔
      (∃ e ∈ h.chain (h.index key), e.key = key ∧ e.val = none) ∧
      ∃ e, ((h.chain (h.index key)).find? fun e => SameLength key e) = some e ∧ e.val = none := by
  have hi := hr.inv.table
  rw [RemovesExactly, hashmapRemove_eq hi hkey, List.find?_eq_bind_findIdx?_getElem?]
  cases hf : (h.chain (h.index key)).findIdx? fun e => SameLength key e with
  | none => simp
  | some i =>
      obtain ⟨hlt, hsame, -⟩ := List.findIdx?_eq_some_iff_getElem.mp hf
      have he := List.getElem?_eq_getElem hlt
      have hmem := List.getElem_mem hlt
      generalize (h.chain (h.index key))[i] = e at hsame he hmem
      have hother : e.key ≠ key := (of_decide_eq_true hsame).2
      have hval := hi.get_chained hmem
      have hget := hashmapGet_remove hi he
      have hitems : oneLess h.items + 1 = h.items := by
        have hlen := List.length_pos_of_mem hmem
        rw [HashmapT.chain, List.length_tail] at hlen
        have hpos := hr.inv.counted (h.index key) (by omega)
        rw [oneLess, if_neg (by omega), Nat.sub_add_cancel hpos]
      rw [Option.bind_some, he]
      constructor
      · rintro ⟨h', freed, hrun, hspec⟩
        obtain ⟨rfl, -⟩ : _ = h' ∧ _ = freed := by simpa using hrun
        by_cases hp : (hashmapEntryGet h key).isSome
        · rw [if_pos hp, hget] at hspec
          obtain ⟨e', he', hkey'⟩ := (hi.present_iff hkey).mp hp
          refine ⟨⟨e', he', hkey', ?_⟩, e, rfl, ?_⟩
          · have hgone := hspec.1
            rwa [Function.update_of_ne hother.symm, ← hkey', hi.get_chained he'] at hgone
          · have hkept := hspec.2.1 e.key hother
            rwa [Function.update_self, hval, eq_comm] at hkept
        · rw [if_neg hp] at hspec
          have hsame : oneLess h.items = h.items := hspec.2
          omega
      · rintro ⟨⟨e', he', hkey', hnull'⟩, x, hx, hnull⟩
        obtain rfl := Option.some.inj hx
        have hsame : Function.update (hashmapGet h) e.key none = hashmapGet h := by
          rw [← hnull, ← hval]
          exact Function.update_eq_self _ _
        refine ⟨_, _, rfl, ?_⟩
        rw [if_pos ((hi.present_iff hkey).mpr ⟨e', he', hkey'⟩), hget, hsame]
        exact ⟨by rw [← hkey', hi.get_chained he', hnull'], fun _ _ => rfl, hitems⟩

end Functions

/-- One bucket with two keys of one length. -/
def twoKeys (a b : Option Nat) : HashmapT Nat := setAll (hashmapCreate 1 one_fits) [([97], a), ([98], b)]

theorem twoKeys_reached (a b : Option Nat) : Reached (twoKeys a b) :=
  (Reached.create one_fits (le_refl 1)).setAll [([97], a), ([98], b)]

theorem index_one (h : HashmapT Nat) (hone : h.entryCount = 1) (key : List Byte) : h.index key = 0 := by
  rw [HashmapT.index, hone, Nat.mod_one]

theorem twoKeys_chain (a b : Option Nat) :
    (twoKeys a b).chain ((twoKeys a b).index [97]) = [⟨1, [97], a⟩, ⟨1, [98], b⟩] := by
  rw [index_one _ (setAll_entryCount _ _), HashmapT.chain, twoKeys, setAll, List.foldl_cons, List.foldl_cons,
    List.foldl_nil, hashmapSet_entries, index_one _ (hashmapSet_entryCount _ _ _ _), Function.update_self,
    hashmapSet_entries, index_one _ rfl, Function.update_self]
  rfl

/-- Both values are `NULL`. -/
theorem null_values_removed : RemovesExactly (twoKeys none none) [97] := by
  apply (hashmap_remove_exact_iff (twoKeys_reached none none) (List.cons_ne_nil 97 [])).mpr
  rw [twoKeys_chain]
  exact ⟨⟨_, List.mem_cons_self, rfl, rfl⟩, ⟨1, [98], none⟩, rfl, rfl⟩

/-- The other key is removed; in an empty table the call reads through `NULL`. -/
theorem other_key_removed :
    (∃ h' freed, hashmapRemove (twoKeys (some 1) (some 2)) [97] = some (true, h', freed) ∧
      hashmapGet h' [97] = some 1 ∧ hashmapGet h' [98] = none) ∧
    Reached (twoKeys (some 1) (some 2)) ∧ ¬RemovesExactly (twoKeys (some 1) (some 2)) [97] ∧
    hashmapRemove (hashmapCreate 1 one_fits : HashmapT Nat) [97] = none := by
  have hr := twoKeys_reached (some 1) (some 2)
  have hi := hr.inv.table
  have hchain := twoKeys_chain (some 1) (some 2)
  have hrun := hashmapRemove_eq hi (List.cons_ne_nil 97 [])
  have hget := hashmapGet_remove hi (congrArg (·[1]?) hchain)
  rw [hchain] at hrun
  have hold : hashmapGet (twoKeys (some 1) (some 2)) [97] = some 1 :=
    hi.get_chained (hchain ▸ List.mem_cons_self : (⟨1, [97], some 1⟩ : HashmapEntry Nat) ∈ _)
  have hleft := congrFun hget [97]
  rw [Function.update_of_ne (by decide), hold] at hleft
  refine ⟨⟨_, _, hrun, hleft, ?_⟩, hr, ?_, ?_⟩
  · rw [hget]
    exact Function.update_self _ _ _
  · rintro ⟨h', freed, hrun', hspec⟩
    have hpresent := (hi.present_iff (List.cons_ne_nil 97 [])).mpr ⟨_, hchain ▸ List.mem_cons_self, rfl⟩
    have htable : _ = h' := congrArg (fun r => r.2.1) (Option.some.inj (hrun.symm.trans hrun'))
    rw [if_pos hpresent, ← htable] at hspec
    exact nomatch hleft.symm.trans hspec.1
  · rw [hashmapRemove_eq (.create one_fits) (List.cons_ne_nil 97 [])]
    rfl

end Flan.Fs.Chained
