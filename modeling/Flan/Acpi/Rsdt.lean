import Flan.Acpi.Madt
import Flan.Fs.Hashmap

/-! The firmware's tables as `acpi/acpi.c` finds them: from the `rsdp` to the root table, which
lists the physical addresses of the others, and from there to the entries that `madt_init`
keeps. -/
namespace Flan.Acpi
open Flan.Lib Flan.Sys

/-! ### The source -/

def sizeofRsdt : Nat := 36

/-- The signature that `madt_init` asks for. -/
def apicSignature : List Byte := Fs.ofChars ['A', 'P', 'I', 'C']

section Source
variable (m : Mem) (hhdm rsdp : Nat)

def useXsdt : Bool := decide (2 ≤ (m (rsdp + 15)).toNat) && decide (read64 m (rsdp + 24) ≠ 0)

/-- What `acpi_init` puts into `rsdt`. -/
def rootTable : Nat :=
  if useXsdt m rsdp then (read64 m (rsdp + 24) + hhdm) % 2 ^ 64
  else (readLE m (rsdp + 16) 4 + hhdm) % 2 ^ 64

def entrySize : Nat := if useXsdt m rsdp then 8 else 4

/-- `rsdt->header.length`. -/
def rootLength (rsdt : Nat) : Nat := readLE m (rsdt + 4) 4

def entryCount (rsdt : Nat) : Nat := sub64 (rootLength m rsdt) sizeofRsdt / entrySize m rsdp

/-- The table behind an entry of the root table. -/
def sdtAt (rsdt i : Nat) : Nat :=
  (readLE m ((rsdt + sizeofRsdt + entrySize m rsdp * i) % 2 ^ 64) (entrySize m rsdp) + hhdm) % 2 ^ 64

/-- Where an entry is, counted from the start of the root table. -/
def entrySpan (i : Nat) : Span := ⟨sizeofRsdt + entrySize m rsdp * i, entrySize m rsdp⟩

/-- The loop of `acpi_find_sdt` from the entry `i` on, with what it reads of the root table. -/
def findSdtFrom (rsdt : Nat) (signature : List Byte) : (left i index : Nat) → Option Nat × List Span
  | 0, _, _ => (none, [])
  | left+1, i, index =>
      let sdt := sdtAt m hhdm rsdp rsdt i
      if Fs.Chained.memcmp (bytesAt m sdt 4) signature 4 ≠ 0 then
        let r := findSdtFrom rsdt signature left (i + 1) index
        (r.1, entrySpan m rsdp i :: r.2)
      else if 0 < index then
        let r := findSdtFrom rsdt signature left (i + 1) (index - 1)
        (r.1, entrySpan m rsdp i :: r.2)
      else (some sdt, [entrySpan m rsdp i])

def acpiFindSdt (rsdt : Nat) (signature : List Byte) (index : Nat) : Option Nat × List Span :=
  let r := findSdtFrom m hhdm rsdp rsdt signature (entryCount m rsdp rsdt) 0 index
  (r.1, ⟨4, 4⟩ :: r.2)

/-- A table, counted from its start. -/
def tableAt (sdt : Nat) : Mem := fun a => m ((sdt + a) % 2 ^ 64)

end Source

/-- `acpi_init`; the assertions fail where the bootloader has no answer or a null pointer in
it. -/
def acpiInit (m : Mem) (hhdm : Nat) (response : Option Nat) (realloc : RawVector → Nat × Mem) (fuel : Nat)
    (vectors : MadtKind → RawVector) : Option MadtLoop := do
  let rsdp ← response
  if rsdp = 0 then none
  else
    let madt := (acpiFindSdt m hhdm rsdp (rootTable m hhdm rsdp) apicSignature 0).1
    madtInit (madt.map (tableAt m)) realloc fuel vectors

/-! ### The search -/

section Search
variable {m : Mem} {hhdm rsdp rsdt left i index : Nat} {signature : List Byte}

/-- The tables that the root table lists. -/
def sdts (m : Mem) (hhdm rsdp rsdt : Nat) : List Nat :=
  (List.range (entryCount m rsdp rsdt)).map (sdtAt m hhdm rsdp rsdt)

def signed (m : Mem) (signature : List Byte) (sdt : Nat) : Bool := bytesAt m sdt 4 == signature

theorem signed_iff_memcmp (hsig : signature.length = 4) {sdt : Nat} :
    signed m signature sdt = true ↔ Fs.Chained.memcmp (bytesAt m sdt 4) signature 4 = 0 := by
  have hlen : (bytesAt m sdt 4).length = signature.length := by rw [hsig, bytesAt, List.length_map, List.length_range]
  have hcmp := Fs.Chained.memcmp_eq_zero hlen
  rw [hsig] at hcmp
  rw [hcmp, signed, beq_iff_eq]

/-- The loop counts the tables of the signature down. -/
theorem findSdtFrom_fst (hsig : signature.length = 4) :
    (findSdtFrom m hhdm rsdp rsdt signature left i index).1 =
      (((List.range' i left).map (sdtAt m hhdm rsdp rsdt)).filter (signed m signature))[index]? := by
  induction left generalizing i index with
  | zero => rfl
  | succ left ih =>
      rw [List.range'_succ, List.map_cons, findSdtFrom]
      by_cases hs : signed m signature (sdtAt m hhdm rsdp rsdt i) = true
      · have hcmp := (signed_iff_memcmp hsig).mp hs
        simp only [hcmp, ne_eq, not_true_eq_false, if_false, List.filter_cons_of_pos hs]
        cases index with
        | zero => rfl
        | succ index => simp only [Nat.succ_pos, if_true, Nat.add_sub_cancel, List.getElem?_cons_succ, ih]
      · have hcmp := mt (signed_iff_memcmp hsig).mpr hs
        simp only [ne_eq, hcmp, not_false_eq_true, if_true, List.filter_cons_of_neg hs, ih]

theorem acpiFindSdt_fst (hsig : signature.length = 4) :
    (acpiFindSdt m hhdm rsdp rsdt signature index).1 =
      ((sdts m hhdm rsdp rsdt).filter (signed m signature))[index]? := by
  simp only [acpiFindSdt, findSdtFrom_fst hsig, sdts, List.range_eq_range']

theorem acpiFindSdt_snd : (acpiFindSdt m hhdm rsdp rsdt signature index).2 =
    ⟨4, 4⟩ :: (findSdtFrom m hhdm rsdp rsdt signature (entryCount m rsdp rsdt) 0 index).2 := by
  simp only [acpiFindSdt]

theorem entrySize_pos : 0 < entrySize m rsdp := by
  rw [entrySize]
  split <;> decide

/-- An entry ends before the entries behind it. -/
theorem entrySpan_hi_le {k n : Nat} (h : k < n) : (entrySpan m rsdp k).hi ≤ sizeofRsdt + entrySize m rsdp * n := by
  have hmul : entrySize m rsdp * (k + 1) ≤ entrySize m rsdp * n := Nat.mul_le_mul_left _ h
  rw [Nat.mul_add, Nat.mul_one] at hmul
  simp only [entrySpan, Span.hi]
  omega

/-- Every read is of an entry that is counted. -/
theorem findSdtFrom_reads {r : Span} (h : r ∈ (findSdtFrom m hhdm rsdp rsdt signature left i index).2) :
    ∃ k, k < i + left ∧ r = entrySpan m rsdp k := by
  induction left generalizing i index with
  | zero => cases h
  | succ left ih =>
      have hrest : ∀ index', r ∈ entrySpan m rsdp i :: (findSdtFrom m hhdm rsdp rsdt signature left (i + 1) index').2 →
          ∃ k, k < i + (left + 1) ∧ r = entrySpan m rsdp k := by
        intro index' hr
        rcases List.mem_cons.mp hr with rfl | hr
        · exact ⟨i, by omega, rfl⟩
        · obtain ⟨k, hk, heq⟩ := ih hr
          exact ⟨k, by omega, heq⟩
      rw [findSdtFrom] at h
      split at h
      case isTrue => exact hrest index h
      case isFalse =>
          split at h
          case isTrue => exact hrest (index - 1) h
          case isFalse =>
              obtain rfl := List.mem_singleton.mp h
              exact ⟨i, by omega, rfl⟩

/-- The first entry is read whatever comes of it. -/
theorem findSdtFrom_first : entrySpan m rsdp i ∈ (findSdtFrom m hhdm rsdp rsdt signature (left + 1) i index).2 := by
  rw [findSdtFrom]
  split
  case isTrue => exact List.mem_cons_self
  case isFalse =>
      split
      case isTrue => exact List.mem_cons_self
      case isFalse => exact List.mem_cons_self

theorem entryCount_of_le (h : sizeofRsdt ≤ rootLength m rsdt) :
    entryCount m rsdp rsdt = (rootLength m rsdt - sizeofRsdt) / entrySize m rsdp := by
  have hlt : rootLength m rsdt < 2 ^ 32 := readLE_lt m (rsdt + 4) 4
  rw [entryCount, sub64_of_le h (by omega)]

/-- A length below that of the header wraps around. -/
theorem entryCount_of_lt (h : rootLength m rsdt < sizeofRsdt) : 0 < entryCount m rsdp rsdt := by
  have hsub : 8 ≤ sub64 (rootLength m rsdt) sizeofRsdt := by
    rw [sizeofRsdt] at h
    rw [sub64, sizeofRsdt]
    omega
  refine Nat.div_pos (Nat.le_trans ?_ hsub) entrySize_pos
  rw [entrySize]
  split <;> decide

/-- `acpi_find_sdt` returns the table that stands at the place `index` among those with the
signature, and nothing where there are not so many. It stays inside the root table exactly
when that states a length of its header at least. -/
theorem acpi_find_sdt_nth (hsig : signature.length = 4) :
    (acpiFindSdt m hhdm rsdp rsdt signature index).1 =
      ((sdts m hhdm rsdp rsdt).filter (signed m signature))[index]? ∧
    ((∀ r ∈ (acpiFindSdt m hhdm rsdp rsdt signature index).2, r.hi ≤ rootLength m rsdt) ↔
      sizeofRsdt ≤ rootLength m rsdt) := by
  refine ⟨acpiFindSdt_fst hsig, ?_⟩
  rw [acpiFindSdt_snd]
  generalize hcount : entryCount m rsdp rsdt = count
  constructor
  · intro hreads
    by_contra hlt
    have hpos : 0 < entryCount m rsdp rsdt := entryCount_of_lt (not_le.mp hlt)
    rw [hcount] at hpos
    obtain ⟨left, rfl⟩ := Nat.exists_eq_succ_of_ne_zero hpos.ne'
    have hhi := hreads _ (List.mem_cons_of_mem _ findSdtFrom_first)
    simp only [entrySpan, Span.hi, Nat.mul_zero, Nat.add_zero] at hhi
    exact hlt (Nat.le_trans (Nat.le_add_right ..) hhi)
  · intro hle
    rw [entryCount_of_le hle] at hcount
    refine List.forall_mem_cons.mpr ⟨Nat.le_trans (by decide : (⟨4, 4⟩ : Span).hi ≤ sizeofRsdt) hle, ?_⟩
    intro r hr
    obtain ⟨k, hk, rfl⟩ := findSdtFrom_reads hr
    have hall : entrySize m rsdp * count ≤ rootLength m rsdt - sizeofRsdt := hcount ▸ Nat.mul_div_le ..
    calc (entrySpan m rsdp k).hi ≤ sizeofRsdt + entrySize m rsdp * count := entrySpan_hi_le (by omega)
      _ ≤ rootLength m rsdt := by omega

end Search

/-- An `rsdp` of revision 2 at `0x100` with an XSDT that lists an FADT and a MADT. -/
def twoTables : Mem :=
  let m := write64 (Function.update (fun _ => 0) 0x10f 2) 0x118 0x200
  let m := write64 (write64 (writeLE m 0x10204 4 52) 0x10224 0x300) 0x1022c 0x400
  let m := storeBytes (storeBytes m 0x10300 (Fs.ofChars ['F', 'A', 'C', 'P'])) 0x10400 apicSignature
  storeBytes (writeLE m 0x10404 4 66) 0x1042c twoLapics.flatten

/-- The search passes over the FADT. -/
theorem second_table_found :
    (acpiFindSdt twoTables 0x10000 0x100 0x10200 apicSignature 0).1 = some 0x10400 ∧
    ∀ r ∈ (acpiFindSdt twoTables 0x10000 0x100 0x10200 apicSignature 0).2, r.hi ≤ rootLength twoTables 0x10200 := by
  obtain ⟨hfound, hreads⟩ := @acpi_find_sdt_nth twoTables 0x10000 0x100 0x10200 0 apicSignature rfl
  refine ⟨hfound.trans ?_, hreads.mpr ?_⟩
  · decide +kernel
  · decide +kernel

/-! ### From the bootloader's pointer to the entries -/

section Firmware
variable {m : Mem} {hhdm rsdp rsdt madt : Nat} {addrs before after : List Nat} {entries : List (List Byte)}

/-- The root table lists the physical addresses. -/
structure Lists (m : Mem) (rsdp rsdt : Nat) (addrs : List Nat) : Prop where
  length : rootLength m rsdt = sizeofRsdt + entrySize m rsdp * addrs.length
  room : rsdt + rootLength m rsdt ≤ 2 ^ 64
  entry : ∀ i a, addrs[i]? = some a → readLE m (rsdt + sizeofRsdt + entrySize m rsdp * i) (entrySize m rsdp) = a

theorem Lists.entryCount_eq (h : Lists m rsdp rsdt addrs) : entryCount m rsdp rsdt = addrs.length := by
  have hlen := h.length
  rw [entryCount_of_le (by omega), hlen, Nat.add_sub_cancel_left, Nat.mul_div_cancel_left _ entrySize_pos]

theorem Lists.sdtAt_eq (h : Lists m rsdp rsdt addrs) {i a : Nat} (ha : addrs[i]? = some a) :
    sdtAt m hhdm rsdp rsdt i = (a + hhdm) % 2 ^ 64 := by
  have hi := (List.getElem?_eq_some_iff.mp ha).1
  have hend : (entrySpan m rsdp i).hi ≤ rootLength m rsdt := (entrySpan_hi_le hi).trans_eq h.length.symm
  have hroom := h.room
  have hpos : 0 < entrySize m rsdp := entrySize_pos
  simp only [entrySpan, Span.hi] at hend
  have hlt : rsdt + sizeofRsdt + entrySize m rsdp * i < 2 ^ 64 := by omega
  rw [sdtAt, Nat.mod_eq_of_lt hlt, h.entry i a ha]

theorem Lists.sdts_eq (h : Lists m rsdp rsdt addrs) :
    sdts m hhdm rsdp rsdt = addrs.map fun a => (a + hhdm) % 2 ^ 64 := by
  apply List.ext_getElem?
  intro i
  rw [sdts, h.entryCount_eq, List.getElem?_map, List.getElem?_map]
  cases ha : addrs[i]? with
  | none =>
      have hi : addrs.length ≤ i := List.getElem?_eq_none_iff.mp ha
      rw [List.getElem?_eq_none (by rwa [List.length_range])]
      rfl
  | some a =>
      have hi := (List.getElem?_eq_some_iff.mp ha).1
      rw [List.getElem?_range hi, Option.map_some, Option.map_some, h.sdtAt_eq ha]

/-- The first of the listed tables with the signature `APIC` is a well-formed MADT. -/
structure HasMadt (m : Mem) (hhdm rsdp : Nat) (before : List Nat) (madt : Nat) (after : List Nat)
    (entries : List (List Byte)) : Prop where
  lists : Lists m rsdp (rootTable m hhdm rsdp) (before ++ madt :: after)
  others : ∀ a ∈ before, bytesAt m ((a + hhdm) % 2 ^ 64) 4 ≠ apicSignature
  signature : bytesAt m ((madt + hhdm) % 2 ^ 64) 4 = apicSignature
  wellFormed : WellFormedMadt (tableAt m ((madt + hhdm) % 2 ^ 64)) entries

theorem HasMadt.found (h : HasMadt m hhdm rsdp before madt after entries) :
    (acpiFindSdt m hhdm rsdp (rootTable m hhdm rsdp) apicSignature 0).1 = some ((madt + hhdm) % 2 ^ 64) := by
  have hbefore : (before.map fun a => (a + hhdm) % 2 ^ 64).filter (signed m apicSignature) = [] := by
    rw [List.filter_eq_nil_iff]
    intro t ht
    obtain ⟨a, ha, rfl⟩ := List.mem_map.mp ht
    rw [signed, beq_iff_eq]
    exact h.others a ha
  have hmadt : signed m apicSignature ((madt + hhdm) % 2 ^ 64) = true := by
    rw [signed, beq_iff_eq]
    exact h.signature
  rw [acpiFindSdt_fst rfl, h.lists.sdts_eq, List.map_append, List.filter_append, hbefore, List.map_cons,
    List.filter_cons_of_pos hmadt]
  rfl

/-- Whether the firmware has the old root table or the new one, and wherever the MADT stands
in it: `acpi_init` ends, and the three vectors hold the records of its entries in their
order. -/
theorem acpi_init_keeps_entries (h : HasMadt m hhdm rsdp before madt after entries) (hrsdp : rsdp ≠ 0)
    {realloc : RawVector → Nat × Mem} (hheap : HeapServes (tableAt m ((madt + hhdm) % 2 ^ 64)) realloc)
    (vectors : MadtKind → RawVector) :
    ∃ s, (∀ fuel, entries.length < fuel → acpiInit m hhdm (some rsdp) realloc fuel vectors = some s) ∧
      ∀ k, (s.vectors k).list = records k entries := by
  obtain ⟨offsets, hlen, hwalk, hrecords⟩ :=
    @walk_of_entries _ _ 0 _ h.wellFormed.entry h.wellFormed.length h.wellFormed.bytes
  obtain ⟨s, hrun, hlist, -⟩ := hwalk.init hheap vectors
  refine ⟨s, fun fuel hfuel => ?_, fun k => (hlist k).trans (hrecords k)⟩
  simp only [acpiInit, Option.bind_eq_bind, Option.bind_some, if_neg hrsdp, h.found, Option.map_some]
  exact hrun fuel (hlen ▸ hfuel)

end Firmware

theorem twoTables_hasMadt : HasMadt twoTables 0x10000 0x100 [0x300] 0x400 [] twoLapics where
  lists := by
    refine ⟨by decide +kernel, by decide +kernel, fun i a ha => ?_⟩
    rcases i with _ | _ | i
    · cases ha
      decide +kernel
    · cases ha
      decide +kernel
    · cases ha
  others := by decide +kernel
  signature := by decide +kernel
  wellFormed := ⟨twoLapics_wellFormed.entry, by decide +kernel, by decide +kernel⟩

/-- Both LAPICs of the second table are kept. -/
theorem second_table_kept : ∃ s,
    acpiInit twoTables 0x10000 (some 0x100) sameBuffer 4 (fun _ => blankVector) = some s ∧
      (s.vectors .lapic).list = [[0, 8, 0, 0, 1, 0, 0, 0], [0, 8, 1, 1, 1, 0, 0, 0]] := by
  obtain ⟨s, hrun, hlist⟩ := acpi_init_keeps_entries twoTables_hasMadt (by decide) (sameBuffer_serves _) fun _ => blankVector
  exact ⟨s, hrun 4 (by decide), hlist .lapic⟩

end Flan.Acpi
