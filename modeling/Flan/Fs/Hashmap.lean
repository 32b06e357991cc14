import Mathlib.Data.List.Nodup
import Flan.Fs.Node

/-! The hash maps of `lib/hashmap.c` entry by entry. A bucket is the entry in the
table followed by its chain, and a place in this list stands for the pointer to
an entry. The maps of `Fs.Node` are these without the lengths of the keys. -/
namespace Flan.Fs.Chained
open Flan.Lib

/-- `memcmp`; behind the end of a string stands its terminator. -/
def memcmp (p1 p2 : List Byte) : Nat → Int
  | 0 => 0
  | size+1 =>
      if p1.headD 0 ≠ p2.headD 0 then
        if p1.headD 0 < p2.headD 0 then -1 else 1
      else memcmp p1.tail p2.tail size

theorem memcmp_eq_zero {p1 p2 : List Byte} (h : p1.length = p2.length) :
    memcmp p1 p2 p2.length = 0 ↔ p1 = p2 := by
  induction p2 generalizing p1 with
  | nil => exact ⟨fun _ => List.length_eq_zero_iff.mp h, fun _ => rfl⟩
  | cons b p2 ih =>
      cases p1 with
      | nil => exact absurd h (by simp)
      | cons a p1 =>
          rw [List.length_cons, memcmp]
          by_cases hab : a = b
          · rw [if_neg (by simpa using hab), List.cons.injEq, and_iff_right hab]
            exact ih (by simpa using h)
          · have hne : (if a < b then -1 else 1 : Int) ≠ 0 := by split <;> decide
            simp only [List.headD_cons, ne_eq, hab, not_false_eq_true, if_true, List.cons.injEq,
              false_and, iff_false]
            exact hne

/-- `hashmap_entry_t` without `next`; the key of the entries in the table is
`NULL`. -/
structure HashmapEntry (α : Type) where
  keyLength : Nat
  key : List Byte
  val : Option α

/-- `sizeof(hashmap_entry_t)`. -/
def sizeofHashmapEntry : Nat := 32

/-- The size of the table that `hashmap_create` asks for is its product, which does not wrap around. -/
structure HashmapT (α : Type) where
  entries : Nat → List (HashmapEntry α)
  entryCount : Nat
  items : Nat
  fits : entryCount * sizeofHashmapEntry < 2 ^ 64

section Functions
variable {α : Type}

def HashmapT.index (h : HashmapT α) (key : List Byte) : Nat := hash key % h.entryCount

/-- The loop of `hashmap_entry_get`. -/
def findEntry (key : List Byte) : List (HashmapEntry α) → Option Nat
  | [] => none
  | e :: rest =>
      if key.length = e.keyLength ∧ memcmp e.key key key.length = 0 then some 0
      else (findEntry key rest).map (· + 1)

def hashmapEntryGet (h : HashmapT α) (key : List Byte) : Option Nat :=
  findEntry key (h.entries (h.index key))

/-- The table is zeroed. -/
def hashmapCreate (entryCount : Nat) (fits : entryCount * sizeofHashmapEntry < 2 ^ 64) : HashmapT α :=
  ⟨fun _ => [⟨0, [], none⟩], entryCount, 0, fits⟩

/-- `hashmap_set`; `calloc` says whether the heap has room for a new entry. -/
def hashmapSet (h : HashmapT α) (key : List Byte) (val : Option α) (calloc : Bool) : Bool × HashmapT α :=
  let index := h.index key
  match hashmapEntryGet h key with
  | some i =>
      let bucket := (h.entries index).modify i fun e => { e with val }
      (true, { h with entries := Function.update h.entries index bucket })
  | none =>
      if calloc then
        let bucket := h.entries index ++ [⟨key.length, key, val⟩]
        (true, { h with entries := Function.update h.entries index bucket, items := h.items + 1 })
      else (false, h)

def hashmapGet (h : HashmapT α) (key : List Byte) : Option α :=
  match hashmapEntryGet h key with
  | none => none
  | some i => ((h.entries (h.index key))[i]?).bind HashmapEntry.val

/-! ### The table without the lengths -/

def HashmapEntry.toEntry (e : HashmapEntry α) : Entry (List Byte) (Option α) := ⟨e.key, e.val⟩

@[simp] theorem HashmapEntry.toEntry_key (e : HashmapEntry α) : e.toEntry.key = e.key := rfl

def HashmapT.buckets (h : HashmapT α) : Buckets (List Byte) (Option α) :=
  fun i => (h.entries i).map HashmapEntry.toEntry

/-- The entries store the lengths of their keys. -/
def Measured (c : List (HashmapEntry α)) : Prop := ∀ e ∈ c, e.keyLength = e.key.length

theorem entry_matches {e : HashmapEntry α} (he : e.keyLength = e.key.length) (key : List Byte) :
    (key.length = e.keyLength ∧ memcmp e.key key key.length = 0) ↔ e.key = key := by
  rw [he]
  constructor
  · rintro ⟨hl, hm⟩
    exact (memcmp_eq_zero hl.symm).mp hm
  · rintro rfl
    exact ⟨rfl, (memcmp_eq_zero rfl).mpr rfl⟩

theorem findEntry_cons {e : HashmapEntry α} (he : e.keyLength = e.key.length) (key : List Byte)
    (c : List (HashmapEntry α)) :
    findEntry key (e :: c) = if e.key = key then some 0 else (findEntry key c).map (· + 1) := by
  rw [findEntry]
  exact if_congr (entry_matches he key) rfl rfl

theorem findEntry_get {es : List (HashmapEntry α)} (hes : Measured es) (key : List Byte) :
    (findEntry key es).bind (fun i => es[i]?.map HashmapEntry.val) =
      chainGet (es.map HashmapEntry.toEntry) key := by
  induction es with
  | nil => rfl
  | cons e es ih =>
      rw [findEntry_cons (hes e List.mem_cons_self), List.map_cons, chainGet, HashmapEntry.toEntry_key]
      by_cases he : e.key = key
      · rw [if_pos he, if_pos he]
        rfl
      · rw [if_neg he, if_neg he, ← ih fun x hx => hes x (List.mem_cons_of_mem e hx), Option.bind_map]
        rfl

theorem findEntry_lt (key : List Byte) (c : List (HashmapEntry α)) :
    ∀ i, findEntry key c = some i → i < c.length := by
  induction c with
  | nil => exact fun i h => nomatch h
  | cons e c ih =>
      intro i h
      rw [findEntry] at h
      split at h
      · obtain rfl := Option.some.inj h
        exact Nat.succ_pos c.length
      · obtain ⟨j, hj, rfl⟩ := Option.map_eq_some_iff.mp h
        exact Nat.succ_lt_succ (ih j hj)

/-- The bucket after `hashmap_set`. -/
def setBucket (c : List (HashmapEntry α)) (key : List Byte) (val : Option α) : List (HashmapEntry α) :=
  match findEntry key c with
  | some i => c.modify i fun e => { e with val }
  | none => c ++ [⟨key.length, key, val⟩]

theorem setBucket_cons {e : HashmapEntry α} (he : e.keyLength = e.key.length) (key : List Byte)
    (val : Option α) (c : List (HashmapEntry α)) :
    setBucket (e :: c) key val =
      if e.key = key then { e with val } :: c else e :: setBucket c key val := by
  rw [setBucket, findEntry_cons he, setBucket]
  by_cases hk : e.key = key
  · rw [if_pos hk, if_pos hk]
    rfl
  · rw [if_neg hk, if_neg hk]
    cases findEntry key c with
    | none => rfl
    | some i => rfl

theorem setBucket_toEntry {c : List (HashmapEntry α)} (hc : Measured c) (key : List Byte)
    (val : Option α) :
    (setBucket c key val).map HashmapEntry.toEntry =
      chainSet (c.map HashmapEntry.toEntry) key val := by
  induction c with
  | nil => rfl
  | cons e c ih =>
      rw [setBucket_cons (hc e List.mem_cons_self), List.map_cons, chainSet, HashmapEntry.toEntry_key]
      by_cases he : e.key = key
      · rw [if_pos he, if_pos he]
        rfl
      · rw [if_neg he, if_neg he, List.map_cons, ih fun x hx => hc x (List.mem_cons_of_mem e hx)]

theorem setBucket_measured {c : List (HashmapEntry α)} (hc : Measured c) (key : List Byte)
    (val : Option α) : Measured (setBucket c key val) := by
  induction c with
  | nil =>
      intro e he
      obtain rfl := List.mem_singleton.mp he
      rfl
  | cons e c ih =>
      rw [setBucket_cons (hc e List.mem_cons_self)]
      have htail : Measured c := fun x hx => hc x (List.mem_cons_of_mem e hx)
      split
      · exact List.forall_mem_cons.mpr ⟨hc e List.mem_cons_self, htail⟩
      · exact List.forall_mem_cons.mpr ⟨hc e List.mem_cons_self, ih htail⟩

theorem hashmapSet_entries (h : HashmapT α) (key : List Byte) (val : Option α) :
    (hashmapSet h key val true).2.entries =
      Function.update h.entries (h.index key) (setBucket (h.entries (h.index key)) key val) := by
  unfold hashmapSet setBucket hashmapEntryGet
  cases findEntry key (h.entries (h.index key)) with
  | none => rfl
  | some i => rfl

theorem hashmapSet_entryCount (h : HashmapT α) (key : List Byte) (val : Option α) (calloc : Bool) :
    (hashmapSet h key val calloc).2.entryCount = h.entryCount := by
  unfold hashmapSet
  cases hashmapEntryGet h key with
  | none =>
      cases calloc with
      | false => rfl
      | true => rfl
  | some i => rfl

/-! ### What every table keeps -/

/-- The chain of a bucket: the entries behind the one in the table. -/
def HashmapT.chain (h : HashmapT α) (i : Nat) : List (HashmapEntry α) := (h.entries i).tail

structure TableInv (h : HashmapT α) : Prop where
  measured : ∀ i, Measured (h.entries i)
  head : ∀ i, ∃ e c, h.entries i = e :: c ∧ e.key = []
  distinct : ∀ i, ((h.entries i).map HashmapEntry.key).Nodup
  bucket : ∀ i, ∀ e ∈ h.chain i, h.index e.key = i

theorem keys_eq (c : List (HashmapEntry α)) :
    c.map HashmapEntry.key = (c.map HashmapEntry.toEntry).map Entry.key := by
  rw [List.map_map]
  rfl

theorem setBucket_keys {c : List (HashmapEntry α)} (hc : Measured c) (key : List Byte) (val : Option α) :
    (setBucket c key val).map HashmapEntry.key =
      if key ∈ c.map HashmapEntry.key then c.map HashmapEntry.key
      else c.map HashmapEntry.key ++ [key] := by
  rw [keys_eq, setBucket_toEntry hc, chainSet_keys, ← keys_eq]
  by_cases hk : key ∈ c.map HashmapEntry.key
  · rw [if_pos hk, if_pos hk]
  · rw [if_neg hk, if_neg hk]

/-- A table is no more than its buckets to `hashmap_get`. -/
theorem hashmapGet_buckets {h : HashmapT α} (hi : TableInv h) (key : List Byte) :
    hashmapGet h key = (h.buckets.get h.index key).join := by
  have hget := findEntry_get (hi.measured (h.index key)) key
  change _ = (chainGet ((h.entries (h.index key)).map HashmapEntry.toEntry) key).join
  rw [← hget, hashmapGet, hashmapEntryGet]
  cases findEntry key (h.entries (h.index key)) with
  | none => rfl
  | some i =>
      change (h.entries (h.index key))[i]?.bind HashmapEntry.val =
        ((h.entries (h.index key))[i]?.map HashmapEntry.val).join
      cases (h.entries (h.index key))[i]? with
      | none => rfl
      | some e => rfl

theorem hashmapSet_buckets {h : HashmapT α} (hi : TableInv h) (key : List Byte) (val : Option α) :
    (hashmapSet h key val true).2.buckets = h.buckets.set h.index key val := by
  funext i
  rw [HashmapT.buckets, hashmapSet_entries, Buckets.set]
  by_cases hk : i = h.index key
  · rw [hk, Function.update_self, Function.update_self, setBucket_toEntry (hi.measured _)]
    rfl
  · rw [Function.update_of_ne hk, Function.update_of_ne hk]
    rfl

theorem hashmapSet_index (h : HashmapT α) (key : List Byte) (val : Option α) :
    (hashmapSet h key val true).2.index = h.index := by
  funext k
  rw [HashmapT.index, hashmapSet_entryCount]
  rfl

theorem TableInv.create {entryCount : Nat} (hfits : entryCount * sizeofHashmapEntry < 2 ^ 64) :
    TableInv (hashmapCreate entryCount hfits : HashmapT α) := by
  constructor
  case measured =>
    intro i e he
    obtain rfl := List.mem_singleton.mp he
    rfl
  case head => exact fun i => ⟨_, _, rfl, rfl⟩
  case distinct => exact fun i => List.nodup_singleton _
  case bucket => exact fun i e he => nomatch he

/-- The first entry of a bucket stays first, and a new key is not the empty one. -/
theorem TableInv.set {h : HashmapT α} (hi : TableInv h) (key : List Byte) (val : Option α) :
    TableInv (hashmapSet h key val true).2 := by
  obtain ⟨e₀, c₀, hc₀, he₀⟩ := hi.head (h.index key)
  have hm := hi.measured (h.index key)
  have hcons := setBucket_cons (hm e₀ (hc₀ ▸ List.mem_cons_self)) key val c₀
  constructor
  case measured =>
    intro i
    rw [hashmapSet_entries]
    by_cases hk : i = h.index key
    · rw [hk, Function.update_self]
      exact setBucket_measured hm key val
    · rw [Function.update_of_ne hk]
      exact hi.measured i
  case head =>
    intro i
    rw [hashmapSet_entries]
    by_cases hk : i = h.index key
    · rw [hk, Function.update_self, hc₀, hcons]
      split
      · exact ⟨_, _, rfl, he₀⟩
      · exact ⟨_, _, rfl, he₀⟩
    · rw [Function.update_of_ne hk]
      exact hi.head i
  case distinct =>
    intro i
    rw [hashmapSet_entries]
    by_cases hk : i = h.index key
    · rw [hk, Function.update_self, setBucket_keys hm]
      split
      case isTrue => exact hi.distinct _
      case isFalse hkey => exact (hi.distinct _).append (List.nodup_singleton _) (by simpa using hkey)
    · rw [Function.update_of_ne hk]
      exact hi.distinct i
  case bucket =>
    intro i e he
    rw [hashmapSet_index]
    rw [HashmapT.chain, hashmapSet_entries] at he
    by_cases hk : i = h.index key
    · -- A key of the changed chain was there before or is the one that is set.
      have hold : ∀ x ∈ c₀, h.index x.key = i := fun x hx => hi.bucket i x (by rwa [HashmapT.chain, hk, hc₀])
      rw [hk, Function.update_self, hc₀, hcons] at he
      have hkeys : e.key ∈ c₀.map HashmapEntry.key ∨ e.key = key := by
        split at he
        · exact .inl (List.mem_map_of_mem he)
        · have hmem := List.mem_map_of_mem (f := HashmapEntry.key) he
          rw [List.tail_cons, setBucket_keys fun x hx => hm x (hc₀ ▸ List.mem_cons_of_mem e₀ hx)] at hmem
          split at hmem
          · exact .inl hmem
          · exact (List.mem_append.mp hmem).imp_right List.mem_singleton.mp
      rcases hkeys with hmem | hkey
      · obtain ⟨x, hx, hxe⟩ := List.mem_map.mp hmem
        rw [← hxe]
        exact hold x hx
      · rw [hkey, hk]
    · rw [Function.update_of_ne hk] at he
      exact hi.bucket i e he

/-- A chained entry is where its key says, and no other has its key. -/
theorem TableInv.chained_unique {h : HashmapT α} (hi : TableInv h) {i j a b : Nat} {e e' : HashmapEntry α}
    (he : (h.chain i)[a]? = some e) (he' : (h.chain j)[b]? = some e') (hkey : e.key = e'.key) :
    i = j ∧ a = b := by
  have hij : i = j := by
    rw [← hi.bucket i e (List.mem_of_getElem? he), hkey, hi.bucket j e' (List.mem_of_getElem? he')]
  subst hij
  have hnodup : ((h.chain i).map HashmapEntry.key).Nodup := by
    rw [HashmapT.chain, List.map_tail]
    exact (hi.distinct i).tail
  refine ⟨rfl, ?_⟩
  have ha : a < ((h.chain i).map HashmapEntry.key).length := by
    rw [List.length_map]
    exact (List.getElem?_eq_some_iff.mp he).1
  apply (List.getElem?_inj ha hnodup).mp
  rw [List.getElem?_map, List.getElem?_map, he, he', Option.map_some, Option.map_some, hkey]

/-! ### Whole sequences of calls -/

/-- The calls of `hashmap_set` one after the other, with room for every entry. -/
def setAll (h : HashmapT α) (sets : List (List Byte × Option α)) : HashmapT α :=
  sets.foldl (fun h c => (hashmapSet h c.1 c.2 true).2) h

/-- The finite map with the same assignments; nothing is `NULL`. -/
def assign (m : List Byte → Option α) (sets : List (List Byte × Option α)) : List Byte → Option α :=
  sets.foldl (fun m c => Function.update m c.1 c.2) m

theorem setAll_entryCount (h : HashmapT α) (sets : List (List Byte × Option α)) :
    (setAll h sets).entryCount = h.entryCount := by
  induction sets generalizing h with
  | nil => rfl
  | cons c sets ih => exact (ih _).trans (hashmapSet_entryCount h c.1 c.2 true)

theorem TableInv.setAll {h : HashmapT α} (hi : TableInv h) (sets : List (List Byte × Option α)) :
    TableInv (setAll h sets) := by
  induction sets generalizing h with
  | nil => exact hi
  | cons c sets ih => exact ih (hi.set c.1 c.2)

theorem hashmapGet_set {h : HashmapT α} (hi : TableInv h) (key : List Byte) (val : Option α) :
    hashmapGet (hashmapSet h key val true).2 = Function.update (hashmapGet h) key val := by
  funext key'
  rw [hashmapGet_buckets (hi.set key val), hashmapSet_buckets hi, hashmapSet_index, Buckets.get_set,
    Function.update_apply, hashmapGet_buckets hi]
  split <;> rfl

theorem hashmapGet_setAll {h : HashmapT α} (hi : TableInv h) (sets : List (List Byte × Option α)) :
    hashmapGet (setAll h sets) = assign (hashmapGet h) sets := by
  induction sets generalizing h with
  | nil => rfl
  | cons c sets ih =>
      have hrest := ih (hi.set c.1 c.2)
      rwa [hashmapGet_set hi] at hrest

theorem hashmapGet_create {entryCount : Nat} (hfits : entryCount * sizeofHashmapEntry < 2 ^ 64) :
    hashmapGet (hashmapCreate entryCount hfits : HashmapT α) = fun _ => none := by
  funext key
  rw [hashmapGet_buckets (.create hfits)]
  change (chainGet [⟨[], none⟩] key).join = none
  rw [chainGet, chainGet]
  split <;> rfl

/-- After any calls of `hashmap_set` the table answers as the finite map, and its
chained entries are in their buckets, each key once. -/
theorem hashmap_refines_map {entryCount : Nat} (hcount : 1 ≤ entryCount)
    (hfits : entryCount * sizeofHashmapEntry < 2 ^ 64) (sets : List (List Byte × Option α)) :
    hashmapGet (setAll (hashmapCreate entryCount hfits) sets) = assign (fun _ => none) sets ∧
      (∀ i, ∀ e ∈ (setAll (hashmapCreate entryCount hfits) sets).chain i,
        i = hash e.key % entryCount ∧ i < entryCount) ∧
      ∀ (i j a b : Nat) (e e' : HashmapEntry α),
        ((setAll (hashmapCreate entryCount hfits) sets).chain i)[a]? = some e →
        ((setAll (hashmapCreate entryCount hfits) sets).chain j)[b]? = some e' →
        e.key = e'.key → i = j ∧ a = b := by
  have hi : TableInv (Chained.setAll (hashmapCreate entryCount hfits) sets) := (TableInv.create hfits).setAll sets
  have hc : (Chained.setAll (hashmapCreate entryCount hfits) sets).entryCount = entryCount := setAll_entryCount _ sets
  refine ⟨?_, ?_, fun i j a b e e' => hi.chained_unique⟩
  · rw [hashmapGet_setAll (.create hfits), hashmapGet_create]
  · intro i e he
    have hb := hi.bucket i e he
    rw [HashmapT.index, hc] at hb
    exact ⟨hb.symm, hb ▸ Nat.mod_lt _ hcount⟩

end Functions

theorem one_fits : 1 * sizeofHashmapEntry < 2 ^ 64 := by decide

/-- One bucket: the empty key is found in the table, the others in the chain. -/
theorem one_bucket_refines_map :
    hashmapGet (setAll (hashmapCreate 1 one_fits) [([97], some 1), ([], some 2), ([97], some 3)]) =
      assign (fun _ => none) [([97], some 1), ([], some 2), ([97], some 3)] :=
  (hashmap_refines_map (le_refl 1) one_fits [([97], some 1), ([], some 2), ([97], some 3)]).1

/-! ### The maps of the file system -/

section Node
variable {α : Type}

def HashmapT.toHashmap (h : HashmapT α) : Hashmap α := ⟨h.buckets, h.entryCount, h.items⟩

theorem toHashmap_create {entryCount : Nat} (hfits : entryCount * sizeofHashmapEntry < 2 ^ 64) :
    (hashmapCreate entryCount hfits : HashmapT α).toHashmap = Fs.hashmapCreate entryCount := rfl

theorem toHashmap_get {h : HashmapT α} (hi : TableInv h) (key : List Byte) :
    hashmapGet h key = Fs.hashmapGet h.toHashmap key := hashmapGet_buckets hi key

theorem hashmapSet_items {h : HashmapT α} (hi : TableInv h) (key : List Byte) (val : Option α) :
    (hashmapSet h key val true).2.items =
      if (h.buckets.get h.index key).isSome then h.items else h.items + 1 := by
  have hget := findEntry_get (hi.measured (h.index key)) key
  have hfound := findEntry_lt key (h.entries (h.index key))
  change _ = if (chainGet ((h.entries (h.index key)).map HashmapEntry.toEntry) key).isSome then _ else _
  rw [← hget]
  unfold hashmapSet hashmapEntryGet
  cases hf : findEntry key (h.entries (h.index key)) with
  | none => rfl
  | some i =>
      rw [Option.bind_some, List.getElem?_eq_getElem (hfound i hf)]
      rfl

theorem toHashmap_set {h : HashmapT α} (hi : TableInv h) (key : List Byte) (val : α) :
    (hashmapSet h key (some val) true).2.toHashmap = Fs.hashmapSet h.toHashmap key val := by
  rw [HashmapT.toHashmap, hashmapSet_buckets hi, hashmapSet_entryCount, hashmapSet_items hi]
  rfl

end Node
end Flan.Fs.Chained
