import Flan.Acpi.Madt

/-! `dev/apic/ioapic.c`: the redirection entries of the IOAPICs that the MADT lists. -/
namespace Flan.Dev
open Flan.Lib Flan.Sys

/-! ### The source -/

/-- The fields of `madt_ioapic_t` that are used. -/
structure MadtIoapic where
  address : Nat
  gsib : Nat
  deriving DecidableEq

def MadtIoapic.ofMem (m : Mem) (p : Nat) : MadtIoapic := ⟨readLE m (p + 4) 4, readLE m (p + 8) 4⟩

/-- The fields of `madt_iso_t` that are used. -/
structure MadtIso where
  irqSource : Byte
  gsi : Nat
  flags : BitVec 16
  deriving DecidableEq

def MadtIso.ofMem (m : Mem) (p : Nat) : MadtIso :=
  ⟨m (p + 3), readLE m (p + 4) 4, BitVec.ofNat 16 (readLE m (p + 8) 2)⟩

/-- An IOAPIC: the number in `IOREGSEL`, and the registers that it selects from. -/
structure IoapicRegs where
  ioregsel : Nat
  reg : Nat → BitVec 32

/-- The vectors of `madt_init`, and the IOAPICs by address. -/
structure Apic where
  madtIoapics : RawVector
  madtIsos : RawVector
  ioapics : Nat → IoapicRegs

def ioapicRead (s : Apic) (ioapicAddress reg : Nat) : BitVec 32 × Apic :=
  let io := { s.ioapics ioapicAddress with ioregsel := reg % 2 ^ 32 }
  (io.reg io.ioregsel, { s with ioapics := Function.update s.ioapics ioapicAddress io })

def ioapicWrite (s : Apic) (ioapicAddress reg : Nat) (data : BitVec 32) : Apic :=
  let io := { s.ioapics ioapicAddress with ioregsel := reg % 2 ^ 32 }
  { s with ioapics := Function.update s.ioapics ioapicAddress { io with reg := Function.update io.reg io.ioregsel data } }

def ioapicGsiCount (s : Apic) (ioapic : MadtIoapic) : Nat × Apic :=
  let (value, s) := ioapicRead s ioapic.address 1
  (((value &&& 0xff0000) >>> 16).toNat, s)

/-- The loop of `ioapic_from_gsi` from the index `i` on; at its end is `assert(0)`. -/
def fromGsiLoop (gsi : Nat) : (left : Nat) → (i : Nat) → Apic → Option (MadtIoapic × Apic)
  | 0, _, _ => none
  | left+1, i, s => do
      let (ptr, v) ← s.madtIoapics.vectorGet i
      let ioApic := MadtIoapic.ofMem v.buf (← ptr)
      let s := { s with madtIoapics := v }
      if ioApic.gsib ≤ gsi then
        let (count, s) := ioapicGsiCount s ioApic
        if gsi < ioApic.gsib + count then some (ioApic, s)
        else fromGsiLoop gsi left (i+1) s
      else fromGsiLoop gsi left (i+1) s

def ioapicFromGsi (s : Apic) (gsi : Nat) : Option (MadtIoapic × Apic) := fromGsiLoop gsi s.madtIoapics.items 0 s

def ioredtblData (lapicId : BitVec 32) (vector : BitVec 8) (flags : BitVec 64) : BitVec 64 :=
  lapicId.setWidth 64 <<< 56 ||| vector.setWidth 64 ||| flags

def ioapicRedirectGsi (lapicId : BitVec 32) (gsi : Nat) (vector : BitVec 8) (flags : BitVec 64) (s : Apic) :
    Option Apic := do
  let data := ioredtblData lapicId vector flags
  let (ioapic, s) ← ioapicFromGsi s gsi
  let ioredtbl := ((gsi + 2 ^ 32 - ioapic.gsib) * 2 + 0x10) % 2 ^ 32
  let s := ioapicWrite s ioapic.address ioredtbl (data.setWidth 32)
  return ioapicWrite s ioapic.address (ioredtbl + 1) ((data >>> 32).setWidth 32)

/-- The loop of `ioapic_redirect_irq` from the index `i` on, and what is behind it. -/
def redirectIrqLoop (lapicId : BitVec 32) (irq vector : BitVec 8) (flags : BitVec 64) :
    (left : Nat) → (i : Nat) → Apic → Option Apic
  | 0, _, s => ioapicRedirectGsi lapicId irq.toNat vector flags s
  | left+1, i, s => do
      let (ptr, v) ← s.madtIsos.vectorGet i
      let iso := MadtIso.ofMem v.buf (← ptr)
      let s := { s with madtIsos := v }
      if iso.irqSource = irq then
        ioapicRedirectGsi lapicId iso.gsi vector (iso.flags.setWidth 64 ||| flags) s
      else redirectIrqLoop lapicId irq vector flags left (i+1) s

def ioapicRedirectIrq (lapicId : BitVec 32) (irq vector : BitVec 8) (flags : BitVec 64) (s : Apic) : Option Apic :=
  redirectIrqLoop lapicId irq vector flags s.madtIsos.items 0 s

/-! ### What the vectors and registers stand for -/

/-- The records of a vector, decoded where they are. -/
def decoded {α : Type} (ofMem : Mem → Nat → α) (v : RawVector) : List α :=
  (List.range v.items).map fun i => ofMem v.buf (i * v.itemSize)

namespace Apic

def ioapicList (s : Apic) : List MadtIoapic := decoded MadtIoapic.ofMem s.madtIoapics
def isoList (s : Apic) : List MadtIso := decoded MadtIso.ofMem s.madtIsos

/-- Bits 16 to 23 of register 1: the index of the last redirection entry. -/
def lastEntry (s : Apic) (ioapic : MadtIoapic) : Nat := (((s.ioapics ioapic.address).reg 1).extractLsb' 16 8).toNat

/-- The GSI is one of the IOAPIC's inputs. -/
def Serves (s : Apic) (ioapic : MadtIoapic) (gsi : Nat) : Prop :=
  ioapic.gsib ≤ gsi ∧ gsi ≤ ioapic.gsib + s.lastEntry ioapic

/-- The test of `ioapic_from_gsi`. -/
def Accepts (s : Apic) (gsi : Nat) (ioapic : MadtIoapic) : Prop :=
  ioapic.gsib ≤ gsi ∧ gsi < ioapic.gsib + s.lastEntry ioapic

instance (s : Apic) (gsi : Nat) : DecidablePred (s.Accepts gsi) := fun _ => instDecidableAnd

def owner (s : Apic) (gsi : Nat) : Option MadtIoapic := s.ioapicList.find? fun ioapic => s.Accepts gsi ioapic

end Apic

/-- The number of the low half of an entry. -/
def MadtIoapic.ioredtbl (ioapic : MadtIoapic) (gsi : Nat) : Nat := 0x10 + 2 * (gsi - ioapic.gsib)

/-- Only the two halves of one entry are written. -/
def Programs (s s' : Apic) (ioapic : MadtIoapic) (gsi : Nat) (data : BitVec 64) : Prop :=
  ∀ a, (s'.ioapics a).reg =
    if a = ioapic.address then
      Function.update (Function.update (s.ioapics a).reg (ioapic.ioredtbl gsi) (data.setWidth 32))
        (ioapic.ioredtbl gsi + 1) ((data >>> 32).setWidth 32)
    else (s.ioapics a).reg

/-! ### Searching -/

section Search
variable {s s' s₁ : Apic} {gsi : Nat}

theorem gsiCount_bits (value : BitVec 32) : (value &&& 0xff0000) >>> 16 = (value.extractLsb' 16 8).setWidth 32 := by
  have hmask : ∀ i < 32, (0xff0000 : BitVec 32).getLsbD (16 + i) = decide (i < 8) := by decide
  apply BitVec.eq_of_getLsbD_eq
  intro i hi
  rw [BitVec.getLsbD_ushiftRight, BitVec.getLsbD_and, hmask i hi, BitVec.getLsbD_setWidth, BitVec.getLsbD_extractLsb',
    decide_eq_true hi, Bool.true_and, Bool.and_comm]

/-- Registers and records are as before; a read selects a register. -/
structure SameRegs (s s' : Apic) : Prop where
  reg : ∀ a, (s'.ioapics a).reg = (s.ioapics a).reg
  madtIoapics : ∃ touched, s'.madtIoapics = { s.madtIoapics with touched }
  madtIsos : ∃ touched, s'.madtIsos = { s.madtIsos with touched }

theorem SameRegs.refl (s : Apic) : SameRegs s s := ⟨fun _ => rfl, ⟨_, rfl⟩, ⟨_, rfl⟩⟩

theorem SameRegs.trans (h : SameRegs s s₁) (h' : SameRegs s₁ s') : SameRegs s s' := by
  obtain ⟨hreg, ⟨t, hio⟩, u, hiso⟩ := h
  obtain ⟨hreg', ⟨t', hio'⟩, u', hiso'⟩ := h'
  refine ⟨fun a => (hreg' a).trans (hreg a), ⟨t', ?_⟩, u', ?_⟩
  · rw [hio', hio]
  · rw [hiso', hiso]

theorem SameRegs.ioapicList (h : SameRegs s s') : s'.ioapicList = s.ioapicList := by
  obtain ⟨t, ht⟩ := h.madtIoapics
  rw [Apic.ioapicList, ht]
  rfl

theorem SameRegs.isoList (h : SameRegs s s') : s'.isoList = s.isoList := by
  obtain ⟨t, ht⟩ := h.madtIsos
  rw [Apic.isoList, ht]
  rfl

theorem SameRegs.lastEntry (h : SameRegs s s') : s'.lastEntry = s.lastEntry := by
  funext ioapic
  rw [Apic.lastEntry, h.reg]
  rfl

theorem SameRegs.accepts (h : SameRegs s s') : s'.Accepts gsi = s.Accepts gsi := by
  unfold Apic.Accepts
  rw [h.lastEntry]

theorem SameRegs.owner (h : SameRegs s s') : s'.owner gsi = s.owner gsi := by
  unfold Apic.owner
  simp only [h.ioapicList, h.accepts]

theorem SameRegs.items (h : SameRegs s s') : s'.madtIoapics.items = s.madtIoapics.items := by
  obtain ⟨t, ht⟩ := h.madtIoapics
  rw [ht]

theorem SameRegs.listInv (h : SameRegs s s') (hinv : s.madtIoapics.ListInv) : s'.madtIoapics.ListInv := by
  obtain ⟨t, ht⟩ := h.madtIoapics
  rw [ht]
  exact ⟨⟨hinv.itemSize, hinv.items, hinv.capacity⟩, hinv.free, hinv.place⟩

/-- Reading the count of inputs. -/
theorem ioapicGsiCount_eq (s : Apic) (ioapic : MadtIoapic) :
    ∃ s', SameRegs s s' ∧ ioapicGsiCount s ioapic = (s.lastEntry ioapic, s') := by
  refine ⟨(ioapicRead s ioapic.address 1).2, ⟨?_, ⟨_, rfl⟩, ⟨_, rfl⟩⟩, ?_⟩
  · intro a
    show (Function.update s.ioapics ioapic.address _ a).reg = _
    rw [Function.update_apply]
    split
    case isTrue ha => rw [ha]
    case isFalse => rfl
  · refine Prod.ext ?_ rfl
    show (((s.ioapics ioapic.address).reg 1 &&& 0xff0000) >>> 16).toNat = _
    rw [gsiCount_bits, BitVec.toNat_setWidth, Apic.lastEntry]
    exact Nat.mod_eq_of_lt ((BitVec.isLt _).trans (by decide))

/-- One record of a vector and those behind it. -/
theorem decoded_drop {α : Type} (ofMem : Mem → Nat → α) {v : RawVector} {i : Nat} (h : i < v.items) :
    (decoded ofMem v).drop i = ofMem v.buf (i * v.itemSize) :: (decoded ofMem v).drop (i + 1) := by
  have hlen : i < (decoded ofMem v).length := by rwa [decoded, List.length_map, List.length_range]
  rw [List.drop_eq_getElem_cons hlen]
  congr 1
  simp only [decoded, List.getElem_map, List.getElem_range]

/-- One record: it is taken if it passes the test, and otherwise the loop goes on. -/
theorem fromGsiLoop_turn {i : Nat} (left : Nat) (hinv : s.madtIoapics.ListInv) (hlt : i < s.madtIoapics.items) :
    ∃ s₁, SameRegs s s₁ ∧ fromGsiLoop gsi (left + 1) i s =
      let ioapic := MadtIoapic.ofMem s.madtIoapics.buf (i * s.madtIoapics.itemSize)
      if s.Accepts gsi ioapic then some (ioapic, s₁) else fromGsiLoop gsi left (i + 1) s₁ := by
  let s₀ : Apic := { s with madtIoapics := { s.madtIoapics with touched := [] } }
  have hsame₀ : SameRegs s s₀ := ⟨fun _ => rfl, ⟨_, rfl⟩, ⟨_, rfl⟩⟩
  rw [fromGsiLoop, vectorGet_eq hinv hlt]
  simp only [Option.bind_eq_bind, Option.bind_some]
  generalize MadtIoapic.ofMem s.madtIoapics.buf (i * s.madtIoapics.itemSize) = ioapic
  by_cases hbase : ioapic.gsib ≤ gsi
  · obtain ⟨s₁, hsame, hcount⟩ := ioapicGsiCount_eq s₀ ioapic
    have hlast : s₀.lastEntry ioapic = s.lastEntry ioapic := rfl
    refine ⟨s₁, hsame₀.trans hsame, ?_⟩
    rw [if_pos hbase, hcount, hlast]
    exact if_congr (and_iff_right hbase).symm rfl rfl
  · refine ⟨s₀, hsame₀, ?_⟩
    rw [if_neg hbase, if_neg fun h => hbase h.1]

/-- Behind the last record there is nothing. -/
theorem decoded_drop_all {α : Type} (ofMem : Mem → Nat → α) {v : RawVector} {i : Nat} (h : i + 0 = v.items) :
    (decoded ofMem v).drop i = [] := by
  rw [List.drop_eq_nil_iff, decoded, List.length_map, List.length_range]
  exact h.ge

/-- The loop of `ioapic_from_gsi` finds the first record that passes its test. -/
theorem fromGsiLoop_eq {left i : Nat} (hinv : s.madtIoapics.ListInv) (hleft : i + left = s.madtIoapics.items) :
    ∃ s', SameRegs s s' ∧
      fromGsiLoop gsi left i s = ((s.ioapicList.drop i).find? fun ioapic => s.Accepts gsi ioapic).map (·, s') := by
  induction left generalizing i s with
  | zero =>
      have hend : s.ioapicList.drop i = [] := decoded_drop_all _ hleft
      refine ⟨s, .refl s, ?_⟩
      rw [hend]
      rfl
  | succ left ih =>
      have hlt : i < s.madtIoapics.items := by omega
      have hfirst : s.ioapicList.drop i = _ :: s.ioapicList.drop (i + 1) := decoded_drop MadtIoapic.ofMem hlt
      obtain ⟨s₁, hsame, hturn⟩ := fromGsiLoop_turn left hinv hlt
      rw [hturn, hfirst, List.find?_cons]
      dsimp only
      split
      case isTrue haccepts =>
        refine ⟨s₁, hsame, ?_⟩
        rw [decide_eq_true haccepts, Option.map_some]
      case isFalse haccepts =>
        have hleft₁ : i + 1 + left = s₁.madtIoapics.items := by
          rw [hsame.items]
          omega
        obtain ⟨s', hsame', hrun⟩ := ih (hsame.listInv hinv) hleft₁
        refine ⟨s', hsame.trans hsame', ?_⟩
        simp only [decide_eq_false haccepts, hrun, hsame.ioapicList, hsame.accepts]

theorem ioapicFromGsi_eq (hinv : s.madtIoapics.ListInv) (gsi : Nat) :
    ∃ s', SameRegs s s' ∧ ioapicFromGsi s gsi = (s.owner gsi).map (·, s') :=
  fromGsiLoop_eq hinv (Nat.zero_add _)

end Search

/-! ### One entry -/

section Redirect
variable {s : Apic} {gsi : Nat} {ioapic : MadtIoapic}

theorem ioapicWrite_reg (s : Apic) (address : Nat) {reg : Nat} (data : BitVec 32) (hreg : reg < 2 ^ 32) (a : Nat) :
    ((ioapicWrite s address reg data).ioapics a).reg =
      if a = address then Function.update (s.ioapics a).reg reg data else (s.ioapics a).reg := by
  show (Function.update s.ioapics address _ a).reg = _
  rw [Function.update_apply]
  split
  case isTrue ha => rw [ha, Nat.mod_eq_of_lt hreg]
  case isFalse => rfl

theorem owner_accepts (h : s.owner gsi = some ioapic) : s.Accepts gsi ioapic := by
  have haccepts := List.find?_some h
  exact of_decide_eq_true haccepts

/-- The register number fits its 32 bits. -/
theorem ioredtbl_eq (h : s.Accepts gsi ioapic) :
    ((gsi + 2 ^ 32 - ioapic.gsib) * 2 + 0x10) % 2 ^ 32 = ioapic.ioredtbl gsi ∧ ioapic.ioredtbl gsi + 1 < 2 ^ 32 := by
  have hlast : s.lastEntry ioapic < 2 ^ 8 := BitVec.isLt _
  have hbase := h.1
  have hend := h.2
  rw [MadtIoapic.ioredtbl]
  omega

theorem ioapicRedirectGsi_eq (hinv : s.madtIoapics.ListInv) (howner : s.owner gsi = some ioapic) (lapicId : BitVec 32)
    (vector : BitVec 8) (flags : BitVec 64) :
    ∃ s', ioapicRedirectGsi lapicId gsi vector flags s = some s' ∧
      Programs s s' ioapic gsi (ioredtblData lapicId vector flags) := by
  obtain ⟨s₁, hsame, hfound⟩ := ioapicFromGsi_eq hinv gsi
  obtain ⟨hreg, hsmall⟩ := ioredtbl_eq (owner_accepts howner)
  rw [howner] at hfound
  let s₂ := ioapicWrite s₁ ioapic.address (ioapic.ioredtbl gsi) ((ioredtblData lapicId vector flags).setWidth 32)
  refine ⟨ioapicWrite s₂ ioapic.address (ioapic.ioredtbl gsi + 1) ((ioredtblData lapicId vector flags >>> 32).setWidth 32),
    ?_, ?_⟩
  · rw [ioapicRedirectGsi, hfound, Option.map_some]
    simp only [Option.bind_eq_bind, Option.bind_some, Option.pure_def, hreg, s₂]
  · intro a
    rw [ioapicWrite_reg _ _ _ hsmall, ioapicWrite_reg _ _ _ (Nat.lt_of_succ_lt hsmall), hsame.reg]
    split
    · rfl
    · rfl

theorem ioapicRedirectGsi_none (hinv : s.madtIoapics.ListInv) (howner : s.owner gsi = none) (lapicId : BitVec 32)
    (vector : BitVec 8) (flags : BitVec 64) : ioapicRedirectGsi lapicId gsi vector flags s = none := by
  obtain ⟨s₁, -, hfound⟩ := ioapicFromGsi_eq hinv gsi
  rw [ioapicRedirectGsi, hfound, howner]
  rfl

theorem Apic.Accepts.serves (h : s.Accepts gsi ioapic) : s.Serves ioapic gsi := ⟨h.1, h.2.le⟩

/-- No GSI is an input of two IOAPICs of the list. -/
def Apic.Disjoint (s : Apic) : Prop := s.ioapicList.Pairwise fun a b => ∀ gsi, ¬(s.Serves a gsi ∧ s.Serves b gsi)

/-- Where the inputs are disjoint, only the IOAPIC that serves a GSI can be found for it. -/
theorem Apic.Disjoint.owner_eq (hd : s.Disjoint) (hmem : ioapic ∈ s.ioapicList) (hserves : s.Serves ioapic gsi) :
    s.owner gsi = if gsi = ioapic.gsib + s.lastEntry ioapic then none else some ioapic := by
  have honly : ∀ other ∈ s.ioapicList, s.Accepts gsi other → other = ioapic := by
    intro other hother haccepts
    by_contra hne
    have hsymm : Std.Symm fun a b => ∀ gsi, ¬(s.Serves a gsi ∧ s.Serves b gsi) := ⟨fun _ _ h gsi hs => h gsi hs.symm⟩
    exact hd.forall hother hmem hne gsi ⟨haccepts.serves, hserves⟩
  by_cases hlast : gsi = ioapic.gsib + s.lastEntry ioapic
  · rw [if_pos hlast]
    apply List.find?_eq_none.mpr
    intro other hother haccepts
    have haccepts : s.Accepts gsi other := of_decide_eq_true haccepts
    obtain rfl := honly other hother haccepts
    exact absurd hlast haccepts.2.ne
  · rw [if_neg hlast]
    have haccepts : s.Accepts gsi ioapic := ⟨hserves.1, Nat.lt_of_le_of_ne hserves.2 hlast⟩
    have hsome : (s.owner gsi).isSome := List.find?_isSome.mpr ⟨ioapic, hmem, decide_eq_true haccepts⟩
    obtain ⟨other, hother⟩ := Option.isSome_iff_exists.mp hsome
    rw [hother, honly other (List.mem_of_find?_eq_some hother) (owner_accepts hother)]

end Redirect

/-! ### A machine with one IOAPIC -/

/-- A vector with the records. -/
def recordVector (size : Nat) (records : List (List Byte)) : RawVector :=
  ⟨records.length, size, records.length * size, false, 4096, fun i => records.flatten.getD i 0, []⟩

theorem recordVector_listInv {size : Nat} {records : List (List Byte)} (hsize : 1 ≤ size)
    (h : records.length * size < 2 ^ 32) : (recordVector size records).ListInv := by
  have hplace : 0 < 4096 ∧ 4096 + records.length * size < 2 ^ 64 := by omega
  exact ⟨⟨hsize, le_rfl, h.trans (by decide)⟩, rfl, .inr hplace⟩

def firstIoapic : MadtIoapic := ⟨0xfec00000, 0⟩

def firstRecord : RawVector := recordVector 12 [[1, 12, 0, 0, 0, 0, 0xc0, 0xfe, 0, 0, 0, 0]]

/-- An IOAPIC with the GSIs 0 to 23, and an override. -/
def oneIoapic (iso : List Byte) : Apic where
  madtIoapics := firstRecord
  madtIsos := recordVector 10 [iso]
  ioapics := fun _ => ⟨0, fun reg => if reg = 1 then 0x170020 else 0⟩

theorem firstRecord_decoded : decoded MadtIoapic.ofMem firstRecord = [firstIoapic] := by decide +kernel

theorem oneIoapic_list (iso : List Byte) : (oneIoapic iso).ioapicList = [firstIoapic] := firstRecord_decoded

theorem oneIoapic_lastEntry (iso : List Byte) : (oneIoapic iso).lastEntry firstIoapic = 23 := by
  show ((0x170020 : BitVec 32).extractLsb' 16 8).toNat = 23
  decide

theorem oneIoapic_inv (iso : List Byte) : (oneIoapic iso).madtIoapics.ListInv ∧ (oneIoapic iso).madtIsos.ListInv :=
  ⟨recordVector_listInv (by decide) (by decide), recordVector_listInv (by decide) (by rw [List.length_singleton]; decide)⟩

theorem oneIoapic_mem (iso : List Byte) : firstIoapic ∈ (oneIoapic iso).ioapicList := by
  rw [oneIoapic_list]
  exact List.mem_cons_self

theorem oneIoapic_disjoint (iso : List Byte) : (oneIoapic iso).Disjoint := by
  rw [Apic.Disjoint, oneIoapic_list]
  exact List.pairwise_singleton _ _

theorem oneIoapic_serves (iso : List Byte) {gsi : Nat} (h : gsi ≤ 23) : (oneIoapic iso).Serves firstIoapic gsi := by
  rw [Apic.Serves, oneIoapic_lastEntry]
  exact ⟨Nat.zero_le gsi, h.trans (Nat.le_add_left 23 _)⟩

theorem oneIoapic_owner (iso : List Byte) (gsi : Nat) (h : gsi ≤ 23) :
    (oneIoapic iso).owner gsi = if gsi = 23 then none else some firstIoapic := by
  rw [(oneIoapic_disjoint iso).owner_eq (oneIoapic_mem iso) (oneIoapic_serves iso h), oneIoapic_lastEntry]
  rfl

/-! ### The inputs of an IOAPIC -/

/-- Every input but the last of an IOAPIC is redirected; for the last one there is no IOAPIC. -/
theorem ioapic_redirect_gsi_iff {s : Apic} {ioapic : MadtIoapic} {gsi : Nat} (hinv : s.madtIoapics.ListInv)
    (hd : s.Disjoint) (hmem : ioapic ∈ s.ioapicList) (hserves : s.Serves ioapic gsi) (lapicId : BitVec 32)
    (vector : BitVec 8) (flags : BitVec 64) :
    (∃ s', ioapicRedirectGsi lapicId gsi vector flags s = some s' ∧
      Programs s s' ioapic gsi (ioredtblData lapicId vector flags)) ↔
    gsi ≠ ioapic.gsib + s.lastEntry ioapic := by
  have howner := hd.owner_eq hmem hserves
  constructor
  · rintro ⟨s', hrun, -⟩ hlast
    rw [if_pos hlast] at howner
    rw [ioapicRedirectGsi_none hinv howner] at hrun
    exact nomatch hrun
  · intro hlast
    rw [if_neg hlast] at howner
    exact ioapicRedirectGsi_eq hinv howner lapicId vector flags

/-- The sixth input is redirected. -/
theorem sixth_input_redirected : ∃ s', ioapicRedirectGsi 0 5 32 0 (oneIoapic []) = some s' ∧
    Programs (oneIoapic []) s' firstIoapic 5 (ioredtblData 0 32 0) :=
  (ioapic_redirect_gsi_iff (oneIoapic_inv []).1 (oneIoapic_disjoint []) (oneIoapic_mem [])
    (oneIoapic_serves [] (by decide)) 0 32 0).mpr (by rw [oneIoapic_lastEntry]; decide)

/-- The last input is served, but no IOAPIC is found for it. -/
theorem last_input_not_found : (oneIoapic []).madtIoapics.ListInv ∧ (oneIoapic []).Disjoint ∧
    firstIoapic ∈ (oneIoapic []).ioapicList ∧ (oneIoapic []).Serves firstIoapic 23 ∧
    ioapicRedirectGsi 0 23 32 0 (oneIoapic []) = none := by
  have hinv := (oneIoapic_inv []).1
  have howner := oneIoapic_owner [] 23 le_rfl
  exact ⟨hinv, oneIoapic_disjoint [], oneIoapic_mem [], oneIoapic_serves [] le_rfl,
    ioapicRedirectGsi_none hinv howner 0 32 0⟩

/-! ### Overrides -/

section Overrides
variable {s : Apic} {irq vector : BitVec 8} {lapicId : BitVec 32}

/-- The first override for an interrupt. -/
def Apic.override (s : Apic) (irq : BitVec 8) : Option MadtIso := s.isoList.find? fun iso => iso.irqSource = irq

def overrideGsi (irq : BitVec 8) : Option MadtIso → Nat
  | some iso => iso.gsi
  | none => irq.toNat

def overrideFlags : Option MadtIso → BitVec 16
  | some iso => iso.flags
  | none => 0

theorem redirectIrqLoop_eq {left i : Nat} {flags : BitVec 64} (hinv : s.madtIsos.ListInv)
    (hleft : i + left = s.madtIsos.items) :
    let iso := (s.isoList.drop i).find? fun iso => iso.irqSource = irq
    ∃ s', SameRegs s s' ∧ redirectIrqLoop lapicId irq vector flags left i s =
      ioapicRedirectGsi lapicId (overrideGsi irq iso) vector ((overrideFlags iso).setWidth 64 ||| flags) s' := by
  induction left generalizing i s with
  | zero =>
      have hend : s.isoList.drop i = [] := decoded_drop_all _ hleft
      have hnone : (overrideFlags none).setWidth 64 = 0#64 := rfl
      refine ⟨s, .refl s, ?_⟩
      rw [hend, List.find?_nil, hnone, BitVec.zero_or]
      rfl
  | succ left ih =>
      have hlt : i < s.madtIsos.items := by omega
      let s₁ : Apic := { s with madtIsos := { s.madtIsos with touched := [] } }
      have hsame : SameRegs s s₁ := ⟨fun _ => rfl, ⟨_, rfl⟩, ⟨_, rfl⟩⟩
      have hinv₁ : s₁.madtIsos.ListInv := ⟨⟨hinv.itemSize, hinv.items, hinv.capacity⟩, hinv.free, hinv.place⟩
      obtain ⟨s', hsame', hrun⟩ := ih hinv₁ (show i + 1 + left = s.madtIsos.items by omega)
      have hfirst : s.isoList.drop i = _ := decoded_drop MadtIso.ofMem hlt
      dsimp only
      rw [redirectIrqLoop, vectorGet_eq hinv hlt, hfirst]
      simp only [Option.bind_eq_bind, Option.bind_some]
      generalize MadtIso.ofMem s.madtIsos.buf (i * s.madtIsos.itemSize) = iso
      by_cases hirq : iso.irqSource = irq
      · refine ⟨s₁, hsame, ?_⟩
        rw [if_pos hirq, List.find?_cons_of_pos (by simpa using hirq)]
        rfl
      · refine ⟨s', hsame.trans hsame', ?_⟩
        rw [if_neg hirq, List.find?_cons_of_neg (by simpa using hirq)]
        exact hrun

/-- The entry of a GSI as it is in the registers. -/
def Apic.entry (s : Apic) (ioapic : MadtIoapic) (gsi : Nat) : BitVec 64 :=
  (s.ioapics ioapic.address).reg (ioapic.ioredtbl gsi + 1) ++ (s.ioapics ioapic.address).reg (ioapic.ioredtbl gsi)

theorem halves (data : BitVec 64) : (data >>> 32).setWidth 32 ++ data.setWidth 32 = data := by
  apply BitVec.eq_of_getLsbD_eq
  intro i hi
  rw [BitVec.getLsbD_append]
  by_cases hlow : i < 32
  · simp only [hlow, if_true, BitVec.getLsbD_setWidth, decide_true, Bool.true_and]
  · have hhigh : i - 32 < 32 := by omega
    have hsum : 32 + (i - 32) = i := by omega
    simp only [hlow, if_false, BitVec.getLsbD_setWidth, hhigh, BitVec.getLsbD_ushiftRight, hsum, decide_true,
      decide_false, Bool.true_and]

theorem Programs.entry {s' : Apic} {ioapic : MadtIoapic} {gsi : Nat} {data : BitVec 64}
    (h : Programs s s' ioapic gsi data) : s'.entry ioapic gsi = data := by
  have hlow : (s'.ioapics ioapic.address).reg (ioapic.ioredtbl gsi) = data.setWidth 32 := by
    rw [h, if_pos rfl, Function.update_of_ne (Nat.ne_of_lt (Nat.lt_succ_self _)), Function.update_self]
  have hhigh : (s'.ioapics ioapic.address).reg (ioapic.ioredtbl gsi + 1) = (data >>> 32).setWidth 32 := by
    rw [h, if_pos rfl, Function.update_self]
  rw [Apic.entry, hlow, hhigh, halves]

/-- What an entry has to say: the vector, the LAPIC, active low and level as the fields of the
override have it. -/
structure EntryRight (entry : BitVec 64) (lapicId : BitVec 32) (vector : BitVec 8) (flags : BitVec 16) : Prop where
  vector : entry.extractLsb' 0 8 = vector
  destination : (entry.extractLsb' 56 8).toNat = lapicId.toNat
  polarity : entry.getLsbD 13 = true ↔ flags.extractLsb' 0 2 = 3
  trigger : entry.getLsbD 15 = true ↔ flags.extractLsb' 2 2 = 3

/-- The flags say the same as bits of an entry. -/
structure FlagsFit (flags : BitVec 16) (vector : BitVec 8) : Prop where
  vector : vector ||| flags.setWidth 8 = vector
  polarity : flags.getLsbD 13 = true ↔ flags.extractLsb' 0 2 = 3
  trigger : flags.getLsbD 15 = true ↔ flags.extractLsb' 2 2 = 3

theorem ioredtblData_bit (lapicId : BitVec 32) (vector : BitVec 8) (flags : BitVec 16) {i : Nat} (hi : i < 64) :
    (ioredtblData lapicId vector (flags.setWidth 64)).getLsbD i =
      (!decide (i < 56) && lapicId.getLsbD (i - 56) || vector.getLsbD i || flags.getLsbD i) := by
  have hlapic : i - 56 < 64 := by omega
  simp only [ioredtblData, BitVec.getLsbD_or, BitVec.getLsbD_shiftLeft, BitVec.getLsbD_setWidth, hi, hlapic, decide_true,
    Bool.true_and]

/-- Below the destination the entry is the vector and the flags in one. -/
theorem ioredtblData_low (lapicId : BitVec 32) (vector : BitVec 8) (flags : BitVec 16) {i : Nat} (hi : i < 56) :
    (ioredtblData lapicId vector (flags.setWidth 64)).getLsbD i = (vector.getLsbD i || flags.getLsbD i) := by
  rw [ioredtblData_bit _ _ _ (by omega), decide_eq_true hi, Bool.not_true, Bool.false_and, Bool.false_or]

theorem ioredtblData_vector (lapicId : BitVec 32) (vector : BitVec 8) (flags : BitVec 16) :
    (ioredtblData lapicId vector (flags.setWidth 64)).extractLsb' 0 8 = vector ||| flags.setWidth 8 := by
  apply BitVec.eq_of_getLsbD_eq
  intro i hi
  rw [BitVec.getLsbD_extractLsb', Nat.zero_add, ioredtblData_low _ _ _ (by omega), BitVec.getLsbD_or,
    BitVec.getLsbD_setWidth, decide_eq_true hi, Bool.true_and, Bool.true_and]

theorem ioredtblData_destination (lapicId : BitVec 32) (vector : BitVec 8) (flags : BitVec 16) :
    (ioredtblData lapicId vector (flags.setWidth 64)).extractLsb' 56 8 = lapicId.setWidth 8 := by
  apply BitVec.eq_of_getLsbD_eq
  intro i hi
  have hhigh : ¬56 + i < 56 := by omega
  rw [BitVec.getLsbD_extractLsb', ioredtblData_bit _ _ _ (by omega), BitVec.getLsbD_of_ge vector _ (by omega),
    BitVec.getLsbD_of_ge flags _ (by omega), BitVec.getLsbD_setWidth, decide_eq_false hhigh, Nat.add_sub_cancel_left]
  simp only [Bool.not_false, Bool.true_and, Bool.or_false]

theorem entryRight_iff (hid : lapicId.toNat < 256) (vector : BitVec 8) (flags : BitVec 16) :
    EntryRight (ioredtblData lapicId vector (flags.setWidth 64)) lapicId vector flags ↔ FlagsFit flags vector := by
  have hhigh : ∀ i, 8 ≤ i → i < 56 →
      (ioredtblData lapicId vector (flags.setWidth 64)).getLsbD i = flags.getLsbD i := by
    intro i hl hr
    rw [ioredtblData_low _ _ _ hr, BitVec.getLsbD_of_ge vector _ hl, Bool.false_or]
  constructor
  · rintro ⟨hv, -, hp, ht⟩
    rw [ioredtblData_vector] at hv
    rw [hhigh 13 (by decide) (by decide)] at hp
    rw [hhigh 15 (by decide) (by decide)] at ht
    exact ⟨hv, hp, ht⟩
  · rintro ⟨hv, hp, ht⟩
    refine ⟨?_, ?_, ?_, ?_⟩
    · rw [ioredtblData_vector, hv]
    · rw [ioredtblData_destination, BitVec.toNat_setWidth]
      exact Nat.mod_eq_of_lt hid
    · rw [hhigh 13 (by decide) (by decide)]
      exact hp
    · rw [hhigh 15 (by decide) (by decide)]
      exact ht

/-- `ioapic_redirect_irq` is a redirection of the interrupt's GSI. -/
theorem ioapicRedirectIrq_gsi (hisos : s.madtIsos.ListInv) :
    ∃ s₁, SameRegs s s₁ ∧ ioapicRedirectIrq lapicId irq vector 0 s =
      ioapicRedirectGsi lapicId (overrideGsi irq (s.override irq)) vector
        ((overrideFlags (s.override irq)).setWidth 64) s₁ := by
  obtain ⟨s₁, hsame, hrun⟩ := @redirectIrqLoop_eq s irq vector lapicId _ 0 0#64 hisos (Nat.zero_add _)
  rw [List.drop_zero, BitVec.or_zero] at hrun
  exact ⟨s₁, hsame, hrun⟩

/-- With an IOAPIC for it. -/
theorem ioapicRedirectIrq_eq {ioapic : MadtIoapic} (hinv : s.madtIoapics.ListInv) (hisos : s.madtIsos.ListInv)
    (howner : s.owner (overrideGsi irq (s.override irq)) = some ioapic) :
    ∃ s', ioapicRedirectIrq lapicId irq vector 0 s = some s' ∧
      Programs s s' ioapic (overrideGsi irq (s.override irq))
        (ioredtblData lapicId vector ((overrideFlags (s.override irq)).setWidth 64)) := by
  obtain ⟨s₁, hsame, hrun⟩ := @ioapicRedirectIrq_gsi s irq vector lapicId hisos
  obtain ⟨s', hrun', hprograms⟩ := ioapicRedirectGsi_eq (hsame.listInv hinv) (hsame.owner.trans howner) lapicId vector
    ((overrideFlags (s.override irq)).setWidth 64)
  refine ⟨s', hrun.trans hrun', fun a => ?_⟩
  rw [hprograms a, hsame.reg]

/-- What `ioapic_redirect_irq` is for: if it does not fail, then the entry of the interrupt's GSI
is written, and no other register. -/
def RedirectsIrq (s : Apic) (lapicId : BitVec 32) (irq vector : BitVec 8) : Prop :=
  ∀ s', ioapicRedirectIrq lapicId irq vector 0 s = some s' →
    ∃ ioapic, s.owner (overrideGsi irq (s.override irq)) = some ioapic ∧
      (∀ a reg, (s'.ioapics a).reg reg = (s.ioapics a).reg reg ∨ a = ioapic.address ∧
        (reg = ioapic.ioredtbl (overrideGsi irq (s.override irq)) ∨
          reg = ioapic.ioredtbl (overrideGsi irq (s.override irq)) + 1)) ∧
      EntryRight (s'.entry ioapic (overrideGsi irq (s.override irq))) lapicId vector (overrideFlags (s.override irq))

theorem Programs.others {s' : Apic} {ioapic : MadtIoapic} {gsi : Nat} {data : BitVec 64}
    (h : Programs s s' ioapic gsi data) (a reg : Nat) :
    (s'.ioapics a).reg reg = (s.ioapics a).reg reg ∨
      a = ioapic.address ∧ (reg = ioapic.ioredtbl gsi ∨ reg = ioapic.ioredtbl gsi + 1) := by
  rw [h]
  by_cases ha : a = ioapic.address
  · by_cases hlow : reg = ioapic.ioredtbl gsi
    · exact .inr ⟨ha, .inl hlow⟩
    by_cases hhigh : reg = ioapic.ioredtbl gsi + 1
    · exact .inr ⟨ha, .inr hhigh⟩
    · left
      rw [if_pos ha, Function.update_of_ne hhigh, Function.update_of_ne hlow]
  · left
    rw [if_neg ha]

/-- The entry is right exactly if the flags of the override, which go into it as they are, fit
its vector and its bits; without an IOAPIC for the GSI nothing is written. -/
theorem ioapic_redirect_irq_iff (hinv : s.madtIoapics.ListInv) (hisos : s.madtIsos.ListInv)
    (hid : lapicId.toNat < 256) (irq vector : BitVec 8) :
    RedirectsIrq s lapicId irq vector ↔
      s.owner (overrideGsi irq (s.override irq)) = none ∨ FlagsFit (overrideFlags (s.override irq)) vector := by
  cases howner : s.owner (overrideGsi irq (s.override irq)) with
  | none =>
      refine iff_of_true (fun s' hrun => ?_) (.inl rfl)
      obtain ⟨s₁, hsame, hgsi⟩ := @ioapicRedirectIrq_gsi s irq vector lapicId hisos
      rw [hgsi, ioapicRedirectGsi_none (hsame.listInv hinv) (hsame.owner.trans howner)] at hrun
      exact nomatch hrun
  | some ioapic =>
      obtain ⟨s', hrun, hprograms⟩ := @ioapicRedirectIrq_eq s irq vector lapicId _ hinv hisos howner
      rw [or_iff_right (Option.some_ne_none ioapic), ← entryRight_iff hid, ← hprograms.entry]
      constructor
      · intro hall
        obtain ⟨other, hother, -, hright⟩ := hall s' hrun
        obtain rfl := Option.some.inj (howner.symm.trans hother)
        exact hright
      · intro hright s'' hrun'
        obtain rfl := Option.some.inj (hrun.symm.trans hrun')
        exact ⟨ioapic, howner, hprograms.others, hright⟩

end Overrides

/-- The machine with an override of an interrupt by a GSI below 23. -/
theorem oneIoapic_override {iso : List Byte} {irq : BitVec 8} {gsi : Nat} {flags : BitVec 16}
    (h : decoded MadtIso.ofMem (recordVector 10 [iso]) = [⟨irq, gsi, flags⟩]) (hgsi : gsi < 23) :
    (oneIoapic iso).override irq = some ⟨irq, gsi, flags⟩ ∧ (oneIoapic iso).owner gsi = some firstIoapic := by
  have hlist : (oneIoapic iso).isoList = [⟨irq, gsi, flags⟩] := h
  constructor
  · rw [Apic.override, hlist]
    exact List.find?_cons_of_pos (decide_eq_true rfl)
  · rw [oneIoapic_owner iso gsi hgsi.le, if_neg hgsi.ne]

/-- The override of the timer: the interrupt 0 is the GSI 2, with no flags. -/
theorem timer_override_redirected :
    (oneIoapic [2, 10, 0, 0, 2, 0, 0, 0, 0, 0]).owner 2 = some firstIoapic ∧
    RedirectsIrq (oneIoapic [2, 10, 0, 0, 2, 0, 0, 0, 0, 0]) 0 0 32 := by
  obtain ⟨hover, howner⟩ := @oneIoapic_override [2, 10, 0, 0, 2, 0, 0, 0, 0, 0] 0 2 0 (by decide +kernel) (by decide)
  refine ⟨howner, (ioapic_redirect_irq_iff (oneIoapic_inv _).1 (oneIoapic_inv _).2 (by decide) 0 32).mpr (.inr ?_)⟩
  rw [hover]
  exact ⟨by decide, by decide, by decide⟩

/-- An override with active low and level: the flags change the vector to 47, and bits 13 and
15 are not set. -/
theorem level_override_changes_vector :
    (∃ s', ioapicRedirectIrq 0 9 32 0 (oneIoapic [2, 10, 0, 9, 9, 0, 0, 0, 15, 0]) = some s' ∧
      s'.entry firstIoapic 9 = 47) ∧
    ¬RedirectsIrq (oneIoapic [2, 10, 0, 9, 9, 0, 0, 0, 15, 0]) 0 9 32 := by
  obtain ⟨hover, howner⟩ := @oneIoapic_override [2, 10, 0, 9, 9, 0, 0, 0, 15, 0] 9 9 15 (by decide +kernel) (by decide)
  have hgsi : overrideGsi 9 ((oneIoapic [2, 10, 0, 9, 9, 0, 0, 0, 15, 0]).override 9) = 9 := by
    rw [hover]
    rfl
  rw [← hgsi] at howner
  obtain ⟨s', hrun, hprograms⟩ := @ioapicRedirectIrq_eq (oneIoapic [2, 10, 0, 9, 9, 0, 0, 0, 15, 0]) 9 32 0 firstIoapic
    (oneIoapic_inv _).1 (oneIoapic_inv _).2 howner
  have hentry := hprograms.entry
  rw [hover] at hentry
  refine ⟨⟨s', hrun, hentry.trans (by decide)⟩, fun hall => ?_⟩
  obtain ⟨ioapic, hfound, -, hright⟩ := hall s' hrun
  obtain rfl := Option.some.inj (howner.symm.trans hfound)
  rw [hover, hentry] at hright
  exact absurd hright.vector (by decide)

end Flan.Dev
