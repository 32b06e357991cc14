import Flan.Sys.Vector

/-! `madt_init` of `acpi/tables/madt.c`: a walk over the entries of the table, whose lengths
the firmware gives. -/
namespace Flan.Acpi
open Flan.Lib Flan.Sys

/-! ### The source -/

/-- The entries that are kept: those with the id 0, 1 and 2. -/
inductive MadtKind where
  | lapic
  | ioapic
  | iso
  deriving DecidableEq

/-- The sizes of `madt_lapic_t`, `madt_ioapic_t` and `madt_iso_t`. -/
def MadtKind.size : MadtKind → Nat
  | .lapic => 8
  | .ioapic => 12
  | .iso => 10

def MadtKind.ofId (id : Byte) : Option MadtKind :=
  if id = 0 then some .lapic
  else if id = 1 then some .ioapic
  else if id = 2 then some .iso
  else none

/-- The fields that `printf` is given: both ids of a LAPIC, the id in the header of an
IOAPIC, the source and the GSI of an override. -/
def MadtKind.printed (header : Nat) : MadtKind → List Span
  | .lapic => [⟨header + 3, 1⟩, ⟨header + 2, 1⟩]
  | .ioapic => [⟨header, 1⟩]
  | .iso => [⟨header + 3, 1⟩, ⟨header + 4, 4⟩]

def sizeofMadt : Nat := 44

/-- `madt->header.length`. -/
def madtLength (table : Mem) : Nat := readLE table 4 4

/-- The loop: the three vectors, and what it has read of the table, counted from its start. -/
structure MadtLoop where
  offset : Nat
  vectors : MadtKind → RawVector
  reads : List Span

section Source
variable (table : Mem) (realloc : RawVector → Nat × Mem)

/-- One entry; `realloc` is the answer of `kheap_realloc` when a vector has to grow. -/
def MadtLoop.turn (s : MadtLoop) : Option MadtLoop := do
  let header := (sizeofMadt + s.offset) % 2 ^ 64
  let s ← match MadtKind.ofId (table header) with
    | some k => do
        let v ← (s.vectors k).vectorPush (bytesAt table header k.size) (realloc (s.vectors k))
        some { s with
          vectors := Function.update s.vectors k v
          reads := ⟨header, 1⟩ :: ⟨header, k.size⟩ :: k.printed header ++ s.reads }
    | none => some { s with reads := ⟨header, 1⟩ :: s.reads }
  return { s with
    offset := (s.offset + max (table (header + 1)).toNat 2) % 2 ^ 64
    reads := ⟨header + 1, 1⟩ :: s.reads }

def madtLoop : (fuel : Nat) → MadtLoop → Option MadtLoop
  | 0, _ => none
  | fuel+1, s =>
      let s := { s with reads := ⟨4, 4⟩ :: s.reads }
      if sub64 (sub64 (madtLength table) sizeofMadt) s.offset < 2 then some s
      else do madtLoop fuel (← s.turn table realloc)

end Source

/-- `madt_init`; without a table the assertion fails. -/
def madtInit (madt : Option Mem) (realloc : RawVector → Nat × Mem) (fuel : Nat) (vectors : MadtKind → RawVector) :
    Option MadtLoop := do
  let table ← madt
  madtLoop table realloc fuel ⟨0, fun k => (vectors k).vectorCreate k.size, []⟩

/-! ### The walk over the entries -/

/-- How far the entry at an offset goes. -/
def entryLength (table : Mem) (offset : Nat) : Nat := max (table (sizeofMadt + offset + 1)).toNat 2

/-- The offsets of the entries, when each of them is inside the table with its record. -/
inductive Walk (table : Mem) (length : Nat) : Nat → List Nat → Prop
  | done {offset : Nat} : sizeofMadt + offset ≤ length → length < sizeofMadt + offset + 2 → Walk table length offset []
  | entry {offset : Nat} {rest : List Nat} : sizeofMadt + offset + 2 ≤ length →
      (∀ k, MadtKind.ofId (table (sizeofMadt + offset)) = some k → sizeofMadt + offset + k.size ≤ length) →
      Walk table length (offset + entryLength table offset) rest → Walk table length offset (offset :: rest)

/-- The records of one kind among the entries at the offsets. -/
def recordsAt (table : Mem) (k : MadtKind) (offsets : List Nat) : List (List Byte) :=
  (offsets.filter fun o => MadtKind.ofId (table (sizeofMadt + o)) = some k).map fun o =>
    bytesAt table (sizeofMadt + o) k.size

/-- The heap has room for as many records as there can be entries in the table. -/
def HeapServes (table : Mem) (realloc : RawVector → Nat × Mem) : Prop :=
  ∀ (k : MadtKind) (v : RawVector), v.ListInv → v.itemSize = k.size → v.capacity < (v.items + 1) * v.itemSize →
    (v.items + 1) * v.itemSize ≤ 6 * madtLength table → v.Keeps ((v.items + 1) * v.itemSize) (realloc v)

/-- The vectors of the loop, with no more items than there were entries. -/
structure MadtLoop.Inv (s : MadtLoop) : Prop where
  list : ∀ k, (s.vectors k).ListInv
  itemSize : ∀ k, (s.vectors k).itemSize = k.size
  items : ∀ k, 2 * (s.vectors k).items ≤ s.offset

theorem size_le (k : MadtKind) : k.size ≤ 12 := by
  cases k <;> decide

theorem two_le_size (k : MadtKind) : 2 ≤ k.size := by
  cases k <;> decide

/-- What is printed is part of the record. -/
theorem printed_inside {header : Nat} {k : MadtKind} {r : Span} (h : r ∈ k.printed header) :
    r.hi ≤ header + k.size := by
  cases k with
  | lapic =>
      rcases List.mem_pair.mp h with rfl | rfl
      · exact Nat.add_le_add_left (by decide : 4 ≤ 8) header
      · exact Nat.add_le_add_left (by decide : 3 ≤ 8) header
  | ioapic =>
      obtain rfl := List.mem_singleton.mp h
      exact Nat.add_le_add_left (by decide : 1 ≤ 12) header
  | iso =>
      rcases List.mem_pair.mp h with rfl | rfl
      · exact Nat.add_le_add_left (by decide : 4 ≤ 10) header
      · exact Nat.add_le_add_left (by decide : 8 ≤ 10) header

section Loop
variable {table : Mem} {realloc : RawVector → Nat × Mem} {s : MadtLoop} {length : Nat}

theorem recordsAt_cons (k : MadtKind) (offset : Nat) (rest : List Nat) :
    recordsAt table k (offset :: rest) =
      (if MadtKind.ofId (table (sizeofMadt + offset)) = some k then [bytesAt table (sizeofMadt + offset) k.size] else []) ++
        recordsAt table k rest := by
  rw [recordsAt, List.filter_cons]
  simp only [decide_eq_true_eq]
  split
  · rfl
  · rfl

/-- A record is pushed. -/
theorem MadtLoop.Inv.push (hi : s.Inv) (hheap : HeapServes table realloc)
    (hroom : sizeofMadt + s.offset + 2 ≤ madtLength table) (k : MadtKind) (header : Nat) :
    ∃ v, (s.vectors k).vectorPush (bytesAt table header k.size) (realloc (s.vectors k)) = some v ∧ v.ListInv ∧
      v.itemSize = k.size ∧ v.items = (s.vectors k).items + 1 ∧
      v.list = (s.vectors k).list ++ [bytesAt table header k.size] := by
  have hsize := hi.itemSize k
  have hlen : (bytesAt table header k.size).length = (s.vectors k).itemSize := by
    rw [hsize, bytesAt, List.length_map, List.length_range]
  have hsmall : ((s.vectors k).items + 1) * (s.vectors k).itemSize ≤ 6 * madtLength table := by
    have hitems := hi.items k
    rw [hsize]
    calc ((s.vectors k).items + 1) * k.size ≤ ((s.vectors k).items + 1) * 12 := Nat.mul_le_mul_left _ (size_le k)
      _ ≤ 6 * madtLength table := by omega
  have hword : ((s.vectors k).items + 1) * (s.vectors k).itemSize < 2 ^ 64 := by
    have hlength : madtLength table < 2 ^ 32 := readLE_lt table 4 4
    omega
  have hkeeps := fun hlt => hheap k _ (hi.list k) hsize hlt hsmall
  obtain ⟨v, hpush, hinv, hlist⟩ := (hi.list k).push hlen hword hkeeps
  obtain ⟨data, buf, touched, heq, -⟩ := vectorPush_eq (hi.list k) hlen hword hkeeps
  have hv := Option.some.inj (hpush.symm.trans heq)
  refine ⟨v, hpush, hinv, ?_, ?_, hlist⟩
  · rw [hv]
    exact hsize
  · rw [hv]

theorem MadtLoop.Inv.pushed {k : MadtKind} {v : RawVector} {offset : Nat} (hi : s.Inv) (hinv : v.ListInv)
    (hsize : v.itemSize = k.size) (hitems : v.items = (s.vectors k).items + 1) (hoff : s.offset + 2 ≤ offset)
    (reads : List Span) : MadtLoop.Inv ⟨offset, Function.update s.vectors k v, reads⟩ := by
  constructor
  · exact (Function.forall_update_iff s.vectors fun _ v => v.ListInv).mpr ⟨hinv, fun j _ => hi.list j⟩
  · exact (Function.forall_update_iff s.vectors fun j v => v.itemSize = j.size).mpr ⟨hsize, fun j _ => hi.itemSize j⟩
  · refine (Function.forall_update_iff s.vectors fun _ v => 2 * v.items ≤ offset).mpr ⟨?_, fun j _ => ?_⟩
    · rw [hitems]
      exact (Nat.add_le_add_right (hi.items k) 2).trans hoff
    · exact (hi.items j).trans (Nat.le_of_add_right_le hoff)

/-- What is read for a record ends where the header or the record does. -/
theorem reads_inside {header : Nat} {k : MadtKind} (hroom : header + 2 ≤ length) (hrecord : header + k.size ≤ length) :
    ∀ r ∈ (⟨header + 1, 1⟩ : Span) :: ⟨header, 1⟩ :: ⟨header, k.size⟩ :: k.printed header, r.hi ≤ length := by
  intro r hr
  rcases List.mem_cons.mp hr with rfl | hr
  · exact hroom
  rcases List.mem_cons.mp hr with rfl | hr
  · exact Nat.le_of_succ_le hroom
  rcases List.mem_cons.mp hr with rfl | hr
  · exact hrecord
  · exact (printed_inside hr).trans hrecord

/-- The header of an entry inside the table, and the step to the next one, do not wrap around. -/
theorem offset_lt (table : Mem) (hlength : length < 2 ^ 32) (hroom : sizeofMadt + s.offset + 2 ≤ length) :
    (sizeofMadt + s.offset) % 2 ^ 64 = sizeofMadt + s.offset ∧
      (s.offset + entryLength table s.offset) % 2 ^ 64 = s.offset + entryLength table s.offset := by
  have hbyte := (table (sizeofMadt + s.offset + 1)).isLt
  have hstep : entryLength table s.offset ≤ 255 := max_le (by omega) (by decide)
  exact ⟨Nat.mod_eq_of_lt (by omega), Nat.mod_eq_of_lt (by omega)⟩

/-- A turn of the loop inside the table. -/
theorem MadtLoop.Inv.turn (hi : s.Inv) (hheap : HeapServes table realloc)
    (hroom : sizeofMadt + s.offset + 2 ≤ madtLength table)
    (hrecord : ∀ k, MadtKind.ofId (table (sizeofMadt + s.offset)) = some k →
      sizeofMadt + s.offset + k.size ≤ madtLength table) :
    ∃ s', s.turn table realloc = some s' ∧ s'.Inv ∧ s'.offset = s.offset + entryLength table s.offset ∧
      (∀ k, (s'.vectors k).list = (s.vectors k).list ++
        if MadtKind.ofId (table (sizeofMadt + s.offset)) = some k then [bytesAt table (sizeofMadt + s.offset) k.size]
        else []) ∧
      ∀ r ∈ s'.reads, r ∈ s.reads ∨ r.hi ≤ madtLength table := by
  obtain ⟨hheader, hnext⟩ := offset_lt table (readLE_lt table 4 4) hroom
  rw [entryLength] at hnext
  have hgrows : s.offset + 2 ≤ s.offset + entryLength table s.offset :=
    Nat.add_le_add_left (le_max_right _ _) _
  cases hk : MadtKind.ofId (table (sizeofMadt + s.offset)) with
  | none =>
      refine ⟨{ s with
        offset := s.offset + entryLength table s.offset
        reads := ⟨sizeofMadt + s.offset + 1, 1⟩ :: ⟨sizeofMadt + s.offset, 1⟩ :: s.reads }, ?_, ?_, rfl, ?_, ?_⟩
      · simp only [MadtLoop.turn, hheader, hk, hnext, Option.bind_eq_bind, Option.bind_some, Option.pure_def,
          entryLength]
      · exact ⟨hi.list, hi.itemSize, fun k => (hi.items k).trans (Nat.le_add_right _ _)⟩
      · intro k
        rw [if_neg nofun, List.append_nil]
      · intro r hr
        rcases List.mem_cons.mp hr with rfl | hr
        · exact .inr hroom
        rcases List.mem_cons.mp hr with rfl | hr
        · exact .inr (Nat.le_of_succ_le hroom)
        · exact .inl hr
  | some k =>
      obtain ⟨v, hpush, hinv, hsize, hitems, hlist⟩ := hi.push hheap hroom k (sizeofMadt + s.offset)
      refine ⟨{ s with
        offset := s.offset + entryLength table s.offset
        vectors := Function.update s.vectors k v
        reads := ⟨sizeofMadt + s.offset + 1, 1⟩ :: ⟨sizeofMadt + s.offset, 1⟩ :: ⟨sizeofMadt + s.offset, k.size⟩ ::
          k.printed (sizeofMadt + s.offset) ++ s.reads }, ?_, hi.pushed hinv hsize hitems hgrows _, rfl, ?_, ?_⟩
      · simp only [MadtLoop.turn, hheader, hk, hpush, hnext, Option.bind_eq_bind, Option.bind_some, Option.pure_def,
          entryLength, List.cons_append]
      · refine (Function.forall_update_iff s.vectors fun j v => v.list = (s.vectors j).list ++ _).mpr
          ⟨?_, fun j hj => ?_⟩
        · rw [hlist, if_pos rfl]
        · rw [if_neg fun h => hj (Option.some.inj h).symm, List.append_nil]
      · intro r hr
        rcases List.mem_append.mp hr with hr | hr
        · exact .inr (reads_inside hroom (hrecord k hk) r hr)
        · exact .inl hr

/-- What is left of the table, before the end of it. -/
theorem left_eq (offset : Nat) (hlength : length < 2 ^ 32) (h : sizeofMadt + offset ≤ length) :
    sub64 (sub64 length sizeofMadt) offset = length - (sizeofMadt + offset) := by
  rw [sub64_of_le (show sizeofMadt ≤ length by omega) (by omega),
    sub64_of_le (show offset ≤ length - sizeofMadt by omega) (by omega), Nat.sub_sub]

theorem Walk.inside {offset : Nat} {offsets : List Nat} (hw : Walk table length offset offsets) :
    sizeofMadt + offset ≤ length := by
  cases hw with
  | done hle _ => exact hle
  | entry hroom _ _ => omega

/-- The loop over entries that are inside. -/
theorem Walk.run {offset : Nat} {offsets : List Nat} (hw : Walk table (madtLength table) offset offsets)
    (hheap : HeapServes table realloc) (hoff : s.offset = offset) (hi : s.Inv) :
    ∃ s', (∀ fuel, offsets.length < fuel → madtLoop table realloc fuel s = some s') ∧
      (∀ k, (s'.vectors k).list = (s.vectors k).list ++ recordsAt table k offsets) ∧
      ∀ r ∈ s'.reads, r ∈ s.reads ∨ r.hi ≤ madtLength table := by
  have hlength : madtLength table < 2 ^ 32 := readLE_lt table 4 4
  have hcheck : (⟨4, 4⟩ : Span).hi ≤ madtLength table :=
    (by decide : 8 ≤ sizeofMadt).trans ((Nat.le_add_right _ _).trans hw.inside)
  induction hw generalizing s with
  | @done offset hle hlt =>
      refine ⟨{ s with reads := ⟨4, 4⟩ :: s.reads }, ?_, ?_, ?_⟩
      · intro fuel hfuel
        obtain ⟨fuel, rfl⟩ := Nat.exists_eq_succ_of_ne_zero (Nat.ne_zero_of_lt hfuel)
        rw [madtLoop]
        exact if_pos (by rw [hoff, left_eq offset hlength hle]; omega)
      · intro k
        rw [recordsAt, List.filter_nil, List.map_nil, List.append_nil]
      · intro r hr
        rcases List.mem_cons.mp hr with rfl | hr
        · exact .inr hcheck
        · exact .inl hr
  | @entry offset rest hroom hrecord _ ih =>
      subst hoff
      have hread : MadtLoop.Inv { s with reads := ⟨4, 4⟩ :: s.reads } := ⟨hi.list, hi.itemSize, hi.items⟩
      obtain ⟨s₁, hturn, hi₁, hoff₁, hlist₁, hreads₁⟩ := hread.turn hheap hroom hrecord
      obtain ⟨s', hrun, hlist, hreads⟩ := ih hoff₁ hi₁
      refine ⟨s', ?_, ?_, ?_⟩
      · intro fuel hfuel
        obtain ⟨fuel, rfl⟩ := Nat.exists_eq_succ_of_ne_zero (Nat.ne_zero_of_lt hfuel)
        have hleft := left_eq s.offset hlength (by omega)
        rw [madtLoop]
        dsimp only
        rw [if_neg (by rw [hleft]; omega), hturn]
        exact hrun fuel (Nat.lt_of_succ_lt_succ hfuel)
      · intro k
        rw [hlist, hlist₁, recordsAt_cons, List.append_assoc]
      · intro r hr
        rcases hreads r hr with hr | hr
        · rcases hreads₁ r hr with hr | hr
          · rcases List.mem_cons.mp hr with rfl | hr
            · exact .inr hcheck
            · exact .inl hr
          · exact .inr hr
        · exact .inr hr

/-- The vectors of `madt_init` before the loop. -/
theorem created_inv (vectors : MadtKind → RawVector) :
    MadtLoop.Inv ⟨0, fun k => (vectors k).vectorCreate k.size, []⟩ := by
  refine ⟨fun k => ⟨.create _ ?_, rfl, .inl rfl⟩, fun _ => rfl, fun _ => le_rfl⟩
  exact (by decide : 1 ≤ 2).trans (two_le_size k)

theorem Walk.init {offsets : List Nat} (hw : Walk table (madtLength table) 0 offsets) (hheap : HeapServes table realloc)
    (vectors : MadtKind → RawVector) :
    ∃ s, (∀ fuel, offsets.length < fuel → madtInit (some table) realloc fuel vectors = some s) ∧
      (∀ k, (s.vectors k).list = recordsAt table k offsets) ∧ ∀ r ∈ s.reads, r.hi ≤ madtLength table := by
  obtain ⟨s, hrun, hlist, hreads⟩ := hw.run hheap rfl (created_inv vectors)
  refine ⟨s, hrun, ?_, ?_⟩
  · intro k
    rw [hlist]
    rfl
  · exact fun r hr => (hreads r hr).resolve_left List.not_mem_nil

end Loop

/-! ### Well-formed tables -/

section Entries
variable {table : Mem} {realloc : RawVector → Nat × Mem}

/-- An entry states its length, which is that of its record at least. -/
structure EntryOk (e : List Byte) : Prop where
  header : 2 ≤ e.length
  length : (e.getD 1 0).toNat = e.length
  record : ∀ k, MadtKind.ofId (e.getD 0 0) = some k → k.size ≤ e.length

/-- The table consists of the entries. -/
structure WellFormedMadt (table : Mem) (entries : List (List Byte)) : Prop where
  entry : ∀ e ∈ entries, EntryOk e
  length : madtLength table = sizeofMadt + entries.flatten.length
  bytes : bytesAt table sizeofMadt entries.flatten.length = entries.flatten

/-- The leading bytes of the entries of a kind, in their order. -/
def records (k : MadtKind) (entries : List (List Byte)) : List (List Byte) :=
  (entries.filter fun e => MadtKind.ofId (e.getD 0 0) = some k).map fun e => e.take k.size

theorem records_cons (k : MadtKind) (e : List Byte) (rest : List (List Byte)) :
    records k (e :: rest) =
      (if MadtKind.ofId (e.getD 0 0) = some k then [e.take k.size] else []) ++ records k rest := by
  rw [records, List.filter_cons]
  simp only [decide_eq_true_eq]
  split
  · rfl
  · rfl

/-- The entries are where the walk comes to. -/
theorem walk_of_entries {length offset : Nat} {entries : List (List Byte)} (hok : ∀ e ∈ entries, EntryOk e)
    (hlength : length = sizeofMadt + offset + entries.flatten.length)
    (hbytes : bytesAt table (sizeofMadt + offset) entries.flatten.length = entries.flatten) :
    ∃ offsets, offsets.length = entries.length ∧ Walk table length offset offsets ∧
      ∀ k, recordsAt table k offsets = records k entries := by
  induction entries generalizing offset with
  | nil =>
      refine ⟨[], rfl, .done hlength.ge ?_, fun k => rfl⟩
      rw [hlength, List.flatten_nil, List.length_nil]
      omega
  | cons e rest ih =>
      have he := hok e List.mem_cons_self
      have htwo := he.header
      rw [List.flatten_cons, List.length_append] at hlength
      rw [List.flatten_cons, List.length_append, bytesAt_add] at hbytes
      obtain ⟨hentry, hrest⟩ := List.append_inj hbytes (by rw [bytesAt, List.length_map, List.length_range])
      have hid : table (sizeofMadt + offset) = e.getD 0 0 := by
        rw [← hentry, bytesAt_getD _ _ _ (by omega), Nat.add_zero]
      have hstep : entryLength table offset = e.length := by
        have hbyte := bytesAt_getD table (sizeofMadt + offset) 0 (show 1 < e.length by omega)
        rw [hentry] at hbyte
        rw [entryLength, ← hbyte, he.length, max_eq_left htwo]
      obtain ⟨offsets, hlen, hwalk, hrecords⟩ := ih (fun x hx => hok x (List.mem_cons_of_mem e hx))
        (show length = sizeofMadt + (offset + e.length) + rest.flatten.length by omega)
        (by rw [← Nat.add_assoc]; exact hrest)
      refine ⟨offset :: offsets, by rw [List.length_cons, List.length_cons, hlen], ?_, ?_⟩
      · refine .entry (by omega) ?_ (hstep ▸ hwalk)
        intro k hk
        have hsize := he.record k (hid ▸ hk)
        omega
      · intro k
        rw [recordsAt_cons, records_cons, hrecords, hid]
        congr 1
        split
        case isTrue hk => rw [← bytesAt_take _ _ (he.record k hk), hentry]
        case isFalse => rfl

/-- `madt_init` comes to the end of a well-formed table, and its vectors hold the records of
each kind. -/
theorem madt_init_complete {entries : List (List Byte)} (hw : WellFormedMadt table entries)
    (hheap : HeapServes table realloc) (vectors : MadtKind → RawVector) :
    ∃ s, (∀ fuel, entries.length < fuel → madtInit (some table) realloc fuel vectors = some s) ∧
      ∀ k, (s.vectors k).list = records k entries := by
  obtain ⟨offsets, hlen, hwalk, hrecords⟩ := @walk_of_entries table _ 0 _ hw.entry hw.length hw.bytes
  obtain ⟨s, hrun, hlist, -⟩ := hwalk.init hheap vectors
  refine ⟨s, fun fuel hfuel => hrun fuel (hlen ▸ hfuel), fun k => ?_⟩
  rw [hlist, hrecords]

end Entries

/-- The heap that gives every vector a new buffer at the same place. -/
def sameBuffer (v : RawVector) : Nat × Mem := (4096, v.buf)

theorem sameBuffer_serves (table : Mem) : HeapServes table sameBuffer := by
  intro k v _ _ _ hsmall
  have hlength : madtLength table < 2 ^ 32 := readLE_lt table 4 4
  have hplace : 0 < 4096 ∧ 4096 + (v.items + 1) * v.itemSize < 2 ^ 64 := by omega
  exact ⟨hplace, fun _ _ => rfl⟩

/-- A table with the given bytes behind its header. -/
def tableOf (length : Nat) (bytes : List Byte) : Mem := storeBytes (writeLE (fun _ => 0) 4 4 length) sizeofMadt bytes

/-- A LAPIC, an entry that is not kept, and another LAPIC. -/
def twoLapics : List (List Byte) := [[0, 8, 0, 0, 1, 0, 0, 0], [4, 6, 255, 0, 0, 1], [0, 8, 1, 1, 1, 0, 0, 0]]

theorem twoLapics_wellFormed : WellFormedMadt (tableOf 66 twoLapics.flatten) twoLapics := by
  refine ⟨?_, by decide +kernel, by decide +kernel⟩
  intro e he
  have hkinds : ∀ k, MadtKind.ofId 0 = some k → k.size ≤ 8 := by
    rintro k hk
    obtain rfl := Option.some.inj hk
    decide
  rcases List.mem_cons.mp he with rfl | he
  · exact ⟨by decide, rfl, hkinds⟩
  rcases List.mem_cons.mp he with rfl | he
  · exact ⟨by decide, rfl, fun k hk => nomatch hk⟩
  obtain rfl := List.mem_singleton.mp he
  exact ⟨by decide, rfl, hkinds⟩

/-- Both LAPICs are found. -/
theorem twoLapics_found : ∃ s, madtInit (some (tableOf 66 twoLapics.flatten)) sameBuffer 4 (fun _ => blankVector) = some s ∧
    (s.vectors .lapic).list = [[0, 8, 0, 0, 1, 0, 0, 0], [0, 8, 1, 1, 1, 0, 0, 0]] ∧ (s.vectors .iso).list = [] := by
  obtain ⟨s, hrun, hlist⟩ := madt_init_complete twoLapics_wellFormed (sameBuffer_serves _) fun _ => blankVector
  exact ⟨s, hrun 4 (by decide), hlist .lapic, hlist .iso⟩

/-! ### Tables with any contents -/

section Bounds
variable {table : Mem} {realloc : RawVector → Nat × Mem} {s s' : MadtLoop}

/-- What a turn reads, and where it goes on. -/
structure Turned (table : Mem) (s s' : MadtLoop) : Prop where
  offset : s'.offset = (s.offset + max (table ((sizeofMadt + s.offset) % 2 ^ 64 + 1)).toNat 2) % 2 ^ 64
  header : ⟨(sizeofMadt + s.offset) % 2 ^ 64, 1⟩ ∈ s'.reads
  record : ∀ k, MadtKind.ofId (table ((sizeofMadt + s.offset) % 2 ^ 64)) = some k →
    ⟨(sizeofMadt + s.offset) % 2 ^ 64, k.size⟩ ∈ s'.reads
  earlier : s.reads ⊆ s'.reads

theorem turn_some (h : s.turn table realloc = some s') : Turned table s s' := by
  rw [MadtLoop.turn] at h
  generalize hheader : (sizeofMadt + s.offset) % 2 ^ 64 = header at h
  cases hk : MadtKind.ofId (table header) with
  | none =>
      simp only [hk, Option.bind_eq_bind, Option.bind_some, Option.pure_def, Option.some.injEq] at h
      subst h
      subst hheader
      refine ⟨rfl, ?_, ?_, ?_⟩
      · exact List.mem_cons_of_mem _ List.mem_cons_self
      · rw [hk]
        exact nofun
      · exact fun r hr => List.mem_cons_of_mem _ (List.mem_cons_of_mem _ hr)
  | some k =>
      simp only [hk, Option.bind_eq_bind, Option.pure_def] at h
      obtain ⟨v, -, h⟩ := Option.bind_eq_some_iff.mp h
      obtain rfl := Option.some.inj h
      subst hheader
      refine ⟨rfl, ?_, ?_, ?_⟩
      · exact List.mem_cons_of_mem _ List.mem_cons_self
      · intro j hj
        obtain rfl := Option.some.inj (hk.symm.trans hj)
        exact List.mem_cons_of_mem _ (List.mem_cons_of_mem _ List.mem_cons_self)
      · intro r hr
        exact List.mem_cons_of_mem _ (List.mem_append_right _ hr)

theorem madtLoop_reads {fuel : Nat} (h : madtLoop table realloc fuel s = some s') : s.reads ⊆ s'.reads := by
  induction fuel generalizing s with
  | zero => exact nomatch h
  | succ fuel ih =>
      rw [madtLoop] at h
      split at h
      · obtain rfl := Option.some.inj h
        exact List.subset_cons_self _ _
      · obtain ⟨s₁, hturn, h⟩ := Option.bind_eq_some_iff.mp h
        exact fun r hr => ih h ((turn_some hturn).earlier (List.mem_cons_of_mem _ hr))

/-- Behind the end of the table the difference in the condition is large, and the loop reads on. -/
theorem past_end_reads {fuel : Nat} (hlength : sizeofMadt ≤ madtLength table)
    (hpast : madtLength table < sizeofMadt + s.offset) (hsmall : s.offset < 2 ^ 33)
    (h : madtLoop table realloc fuel s = some s') : ∃ r ∈ s'.reads, madtLength table < r.hi := by
  have hword : madtLength table < 2 ^ 32 := readLE_lt table 4 4
  have hleft : ¬sub64 (sub64 (madtLength table) sizeofMadt) s.offset < 2 := by
    rw [sub64_of_le hlength (by omega), sub64, Nat.mod_eq_of_lt (show s.offset < 2 ^ 64 by omega)]
    omega
  cases fuel with
  | zero => cases h
  | succ fuel =>
      rw [madtLoop] at h
      dsimp only at h
      rw [if_neg hleft] at h
      obtain ⟨s₁, hturn, h⟩ := Option.bind_eq_some_iff.mp h
      refine ⟨_, madtLoop_reads h (turn_some hturn).header, ?_⟩
      show madtLength table < (sizeofMadt + s.offset) % 2 ^ 64 + 1
      rw [Nat.mod_eq_of_lt (by rw [sizeofMadt]; omega)]
      omega

/-- If nothing is read outside the table, neither entry nor record is. -/
theorem walk_of_reads {fuel : Nat} (hin : sizeofMadt + s.offset ≤ madtLength table)
    (h : madtLoop table realloc fuel s = some s') (hreads : ∀ r ∈ s'.reads, r.hi ≤ madtLength table) :
    ∃ offsets, Walk table (madtLength table) s.offset offsets := by
  have hword : madtLength table < 2 ^ 32 := readLE_lt table 4 4
  induction fuel generalizing s with
  | zero => exact nomatch h
  | succ fuel ih =>
      rw [madtLoop] at h
      dsimp only at h
      rw [left_eq s.offset hword hin] at h
      split at h
      case isTrue hleft => exact ⟨[], .done hin (by omega)⟩
      case isFalse hleft =>
        have hroom : sizeofMadt + s.offset + 2 ≤ madtLength table := by omega
        obtain ⟨hheader, hnext⟩ := offset_lt table hword hroom
        obtain ⟨s₁, hturn, h⟩ := Option.bind_eq_some_iff.mp h
        have ht := turn_some hturn
        have hlater := madtLoop_reads h
        have hoff : s₁.offset = s.offset + entryLength table s.offset := by
          rw [ht.offset, hheader]
          exact hnext
        have hinside : sizeofMadt + s₁.offset ≤ madtLength table := by
          by_contra hpast
          have hbyte := (table (sizeofMadt + s.offset + 1)).isLt
          have hstep : entryLength table s.offset ≤ 255 := max_le (by omega) (by decide)
          obtain ⟨r, hr, hlt⟩ := past_end_reads (by omega) (by omega) (by omega) h
          exact absurd (hreads r hr) (by omega)
        obtain ⟨offsets, hwalk⟩ := ih hinside h
        refine ⟨s.offset :: offsets, .entry hroom ?_ (hoff ▸ hwalk)⟩
        intro k hk
        have hrecord := hreads _ (hlater (ht.record k (hheader.symm ▸ hk)))
        rwa [hheader] at hrecord

/-- `madt_init` ends without having read outside the table exactly if the entries fill it one
behind the other and none of their records goes over its end. -/
theorem madt_init_stays_inside_iff (hlength : sizeofMadt ≤ madtLength table) (hheap : HeapServes table realloc)
    (vectors : MadtKind → RawVector) :
    (∃ fuel s, madtInit (some table) realloc fuel vectors = some s ∧ ∀ r ∈ s.reads, r.hi ≤ madtLength table) ↔
      ∃ offsets, Walk table (madtLength table) 0 offsets := by
  constructor
  · rintro ⟨fuel, s, hrun, hreads⟩
    exact @walk_of_reads table realloc ⟨0, _, []⟩ s fuel hlength hrun hreads
  · rintro ⟨offsets, hwalk⟩
    obtain ⟨s, hrun, -, hreads⟩ := hwalk.init hheap vectors
    exact ⟨_, s, hrun _ (Nat.lt_succ_self _), hreads⟩

end Bounds

/-- The table with the two LAPICs is not left. -/
theorem twoLapics_stay_inside : ∃ fuel s,
    madtInit (some (tableOf 66 twoLapics.flatten)) sameBuffer fuel (fun _ => blankVector) = some s ∧
      ∀ r ∈ s.reads, r.hi ≤ madtLength (tableOf 66 twoLapics.flatten) := by
  have hw := twoLapics_wellFormed
  obtain ⟨offsets, -, hwalk, -⟩ := @walk_of_entries _ _ 0 _ hw.entry hw.length hw.bytes
  exact (madt_init_stays_inside_iff (by decide +kernel) (sameBuffer_serves _) _).mpr ⟨offsets, hwalk⟩

/-- A LAPIC of which only the header is in the table: the record is copied from behind its
end, and the loop goes on there. -/
theorem truncated_entry_leaves_table :
    sizeofMadt ≤ madtLength (tableOf 46 [0, 8]) ∧
    (∃ s, MadtLoop.turn (tableOf 46 [0, 8]) sameBuffer ⟨0, fun k => blankVector.vectorCreate k.size, []⟩ = some s ∧
      ⟨44, 8⟩ ∈ s.reads ∧ s.offset = 8) ∧
    ¬∃ fuel s, madtInit (some (tableOf 46 [0, 8])) sameBuffer fuel (fun _ => blankVector) = some s ∧
      ∀ r ∈ s.reads, r.hi ≤ madtLength (tableOf 46 [0, 8]) := by
  have hlength : madtLength (tableOf 46 [0, 8]) = 46 := by decide +kernel
  refine ⟨hlength ▸ (by decide), ⟨_, rfl, by decide, by decide⟩, ?_⟩
  rintro ⟨fuel, s, hrun, hreads⟩
  obtain ⟨offsets, hwalk⟩ := walk_of_reads (hlength ▸ (by decide)) hrun hreads
  rw [hlength] at hwalk
  cases hwalk with
  | done _ hlt => exact absurd hlt (by decide)
  | entry _ hrecord _ => exact absurd (hrecord .lapic (by decide)) (by decide)

end Flan.Acpi
