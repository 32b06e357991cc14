import Flan.Memory.Pmm

/-! `pmm_init`: the allocator that the bootloader's memory map gives. -/
namespace Flan.Memory
open Flan.Lib

/-- `struct limine_memmap_entry`. -/
structure MemmapEntry where
  base : Nat
  length : Nat
  type : Nat

def limineMemmapUsable : Nat := 0

/-! ### The three loops -/

/-- The test of the first two loops, `!type == LIMINE_MEMMAP_USABLE`: the `!` is
of `type` alone. -/
def MemmapEntry.skipped (e : MemmapEntry) : Bool := (if e.type = 0 then 1 else 0) == limineMemmapUsable

/-- The first loop: the highest end of an entry that is not skipped. -/
def highestOf : List MemmapEntry → (highest : Nat) → Nat
  | [], highest => highest
  | e :: es, highest =>
      if e.skipped then highestOf es highest
      else
        let top := (e.base + e.length) % 2 ^ 64
        highestOf es (if top > highest then top else highest)

def highest (mmaps : List MemmapEntry) : Nat := highestOf mmaps 0

def bitmapSize (mmaps : List MemmapEntry) : Nat := alignUpFrame (highest mmaps / frameSize / 8)

/-- The second loop: the address of the first entry that is long enough for the
bitmap, and the map without the bitmap's place. -/
def carve (size : Nat) : List MemmapEntry → Option (Nat × List MemmapEntry)
  | [] => none
  | e :: es =>
      if e.skipped then (carve size es).map fun r => (r.1, e :: r.2)
      else if size ≤ e.length then
        some (e.base, { e with base := (e.base + size) % 2 ^ 64, length := e.length - size } :: es)
      else (carve size es).map fun r => (r.1, e :: r.2)

/-- Frees the frames of an entry one by one. -/
def freeEntry (p : Pmm) (base : Nat) : (frames : Nat) → Pmm
  | 0 => p
  | t+1 => pmmFree (freeEntry p base t) ((base + t * frameSize) % 2 ^ 64) 1

/-- The third loop. -/
def freeEntries (p : Pmm) : List MemmapEntry → Pmm
  | [] => p
  | e :: es =>
      if e.type ≠ limineMemmapUsable then freeEntries p es
      else freeEntries (freeEntry p e.base ((e.length + frameSize - 1) / frameSize)) es

theorem highestOf_lt {mmaps : List MemmapEntry} {h : Nat} (hh : h < 2 ^ 64) : highestOf mmaps h < 2 ^ 64 := by
  induction mmaps generalizing h with
  | nil => exact hh
  | cons e es ih =>
      rw [highestOf]
      split
      · exact ih hh
      · refine ih ?_
        split
        · exact Nat.mod_lt _ (by decide)
        · exact hh

theorem highest_frames_le (mmaps : List MemmapEntry) : highest mmaps / frameSize ≤ 2 ^ 52 := by
  have hlt : highest mmaps < 2 ^ 64 := highestOf_lt (by decide)
  rw [frameSize]
  omega

/-- The bitmap on physical memory `mem`, with `limit` and nothing free. -/
def fullPmm (mem : Mem) (bitmap : Nat) (mmaps : List MemmapEntry) : Pmm where
  bitmap := memset (fun i => mem (bitmap + i)) 0 0xff (bitmapSize mmaps)
  limit := highest mmaps / frameSize
  limit_le := highest_frames_le mmaps

/-- `pmm_init` on the memory that the bootloader leaves. Where no entry can hold the
bitmap it is written through a null pointer, and there is no result. -/
def pmmInit (mem : Mem) (mmaps : List MemmapEntry) : Option Pmm := do
  let (bitmap, rest) ← carve (bitmapSize mmaps) mmaps
  return freeEntries (fullPmm mem bitmap mmaps) rest

/-! ### What it leaves free -/

def MemmapEntry.Has (e : MemmapEntry) (frame : Nat) : Prop :=
  e.base ≤ frameSize * frame ∧ frameSize * frame < e.base + e.length

/-- A usable entry is made of whole frames. -/
def MemmapEntry.Framed (e : MemmapEntry) : Prop :=
  e.type = limineMemmapUsable → frameSize ∣ e.base ∧ frameSize ∣ e.length ∧ e.base + e.length < 2 ^ 64

/-- The same, where the last entry may end with the address space. -/
def MemmapEntry.Paged (e : MemmapEntry) : Prop :=
  e.type = limineMemmapUsable → frameSize ∣ e.base ∧ frameSize ∣ e.length ∧ e.base + e.length ≤ 2 ^ 64

theorem MemmapEntry.Framed.paged {e : MemmapEntry} (h : e.Framed) : e.Paged :=
  fun htype => ⟨(h htype).1, (h htype).2.1, (h htype).2.2.le⟩

/-- A frame below the limit, other than frame 0, of a usable entry behind the bitmap's
place; or one whose bit is behind the bitmap, and clear in the memory there. -/
def Allocatable (mem : Mem) (mmaps : List MemmapEntry) (frame : Nat) : Prop :=
  ∃ bitmap rest, carve (bitmapSize mmaps) mmaps = some (bitmap, rest) ∧ 1 ≤ frame ∧
    frame < highest mmaps / frameSize ∧
    ((∃ e ∈ rest, e.type = limineMemmapUsable ∧ e.Has frame) ∨
      bitmapSize mmaps ≤ frame / 8 ∧ bitTest (fun i => mem (bitmap + i)) frame = false)

section Spec
variable {mem : Mem} {mmaps rest : List MemmapEntry} {e : MemmapEntry} {p : Pmm} {size bitmap : Nat}

theorem skipped_iff : e.skipped = true ↔ e.type ≠ limineMemmapUsable := by
  rw [MemmapEntry.skipped, limineMemmapUsable]
  split
  · rename_i h
    simp [h]
  · rename_i h
    simp [h]

theorem bitmapSize_dvd (mmaps : List MemmapEntry) : frameSize ∣ bitmapSize mmaps := Nat.dvd_mul_left ..

/-- The entry that the bitmap's place is taken from. -/
def MemmapEntry.behind (e : MemmapEntry) (size : Nat) : MemmapEntry :=
  { e with base := (e.base + size) % 2 ^ 64, length := e.length - size }

/-- The bitmap is put in front of the first usable entry that has room for it. -/
theorem carve_some (h : carve size mmaps = some (bitmap, rest)) :
    ∃ before e after, mmaps = before ++ e :: after ∧ rest = before ++ e.behind size :: after ∧
      e.type = limineMemmapUsable ∧ size ≤ e.length ∧ bitmap = e.base := by
  induction mmaps generalizing rest with
  | nil => cases h
  | cons e es ih =>
      have hlater : (carve size es).map (fun r => (r.1, e :: r.2)) = some (bitmap, rest) →
          ∃ before d after, e :: es = before ++ d :: after ∧ rest = before ++ d.behind size :: after ∧
            d.type = limineMemmapUsable ∧ size ≤ d.length ∧ bitmap = d.base := by
        intro h
        obtain ⟨⟨b, rest'⟩, hrest, heq⟩ := Option.map_eq_some_iff.mp h
        cases heq
        obtain ⟨before, d, after, rfl, rfl, hd⟩ := ih hrest
        exact ⟨e :: before, d, after, rfl, rfl, hd⟩
      rw [carve] at h
      split at h
      · exact hlater h
      · rename_i hskip
        split at h
        · rename_i hfits
          cases h
          exact ⟨[], e, es, rfl, rfl, not_not.mp fun hne => hskip (skipped_iff.mpr hne), hfits, rfl⟩
        · exact hlater h

theorem MemmapEntry.Paged.behind (he : e.Paged) (hsize : frameSize ∣ size) (hfits : size ≤ e.length) :
    (e.behind size).Paged := by
  intro htype
  obtain ⟨hbase, hlen, hend⟩ := he htype
  have hmod : frameSize ∣ (e.base + size) % 2 ^ 64 :=
    (Nat.dvd_mod_iff (by decide)).mpr (Nat.dvd_add hbase hsize)
  refine ⟨hmod, Nat.dvd_sub hlen hsize, ?_⟩
  have hle : (e.base + size) % 2 ^ 64 ≤ e.base + size := Nat.mod_le ..
  show (e.base + size) % 2 ^ 64 + (e.length - size) ≤ 2 ^ 64
  omega

theorem carve_paged (hsize : frameSize ∣ size) (hmap : ∀ e ∈ mmaps, e.Paged)
    (h : carve size mmaps = some (bitmap, rest)) : ∀ e ∈ rest, e.Paged := by
  obtain ⟨before, e, after, rfl, rfl, -, hfits, -⟩ := carve_some h
  intro d hd
  rcases List.mem_append.mp hd with hd | hd
  · exact hmap d (List.mem_append_left _ hd)
  · rcases List.mem_cons.mp hd with rfl | hd
    · exact (hmap e (by simp)).behind hsize hfits
    · exact hmap d (by simp [hd])

theorem freeEntry_used {b n : Nat} (h : b + n ≤ 2 ^ 52) (x : Nat) :
    (freeEntry p (frameSize * b) n).used x = (!decide (b ≤ x ∧ x < b + n) && p.used x) := by
  induction n with
  | zero =>
      rw [decide_eq_false (by omega), Bool.not_false, Bool.true_and]
      rfl
  | succ t ih =>
      have hptr : (frameSize * b + t * frameSize) % 2 ^ 64 = frameSize * (b + t) := by
        rw [frameSize]
        omega
      rw [freeEntry, hptr, pmmFree_used (by omega), ih (by omega), ← Bool.and_assoc, ← Bool.not_or, ← Bool.decide_or]
      congr 2
      exact decide_eq_decide.mpr (by omega)

theorem freeEntry_limit (base n : Nat) : (freeEntry p base n).limit = p.limit := by
  induction n with
  | zero => rfl
  | succ t ih => exact (pmmFree_limit ..).trans ih

theorem freeEntries_limit : (freeEntries p mmaps).limit = p.limit := by
  induction mmaps generalizing p with
  | nil => rfl
  | cons e es ih =>
      rw [freeEntries]
      split
      · exact ih
      · exact ih.trans (freeEntry_limit ..)

/-- What is freed of a usable entry. -/
theorem freeEntry_frames (he : e.Paged) (htype : e.type = limineMemmapUsable) (x : Nat) :
    (freeEntry p e.base ((e.length + frameSize - 1) / frameSize)).used x = true ↔ ¬ e.Has x ∧ p.used x = true := by
  obtain ⟨⟨b, hb⟩, ⟨n, hn⟩, hend⟩ := he htype
  have hframes : (e.length + frameSize - 1) / frameSize = n := by
    rw [hn, frameSize]
    omega
  rw [hframes, hb, freeEntry_used (by rw [frameSize] at *; omega), Bool.and_eq_true, Bool.not_eq_true',
    decide_eq_false_iff_not, MemmapEntry.Has, hb, hn, frameSize]
  exact and_congr_left fun _ => not_congr (by omega)

theorem freeEntries_used (hmap : ∀ e ∈ mmaps, e.Paged) (x : Nat) :
    (freeEntries p mmaps).used x = true ↔
      p.used x = true ∧ ∀ e ∈ mmaps, e.type = limineMemmapUsable → ¬ e.Has x := by
  induction mmaps generalizing p with
  | nil => exact ⟨fun h => ⟨h, nofun⟩, fun h => h.1⟩
  | cons e es ih =>
      obtain ⟨he, hes⟩ := List.forall_mem_cons.mp hmap
      rw [freeEntries, List.forall_mem_cons]
      split
      · rename_i htype
        rw [ih hes]
        exact and_congr_right fun _ => ⟨fun h => ⟨fun hu => absurd hu htype, h⟩, fun h => h.2⟩
      · rename_i htype
        have htype := not_not.mp htype
        rw [ih hes, freeEntry_frames he htype, and_assoc, and_left_comm]
        exact and_congr_right fun _ => and_congr_left fun _ => ⟨fun h _ => h, fun h => h htype⟩

theorem fullPmm_used (x : Nat) : (fullPmm mem bitmap mmaps).used x = true ↔
    x / 8 < bitmapSize mmaps ∨ bitTest (fun i => mem (bitmap + i)) x = true := by
  simp only [Pmm.used, fullPmm, bitTest_eq_getLsbD, memset_apply]
  split
  · rename_i hin
    have hbits : ∀ k, k < 8 → (0xff : Byte).getLsbD k = true := by decide
    exact ⟨fun _ => .inl (by omega), fun _ => hbits _ (Nat.mod_lt x (by decide))⟩
  · rename_i hout
    exact ⟨.inr, fun h => h.resolve_left (by omega)⟩

theorem pmmInit_limit (hp : pmmInit mem mmaps = some p) : p.limit = highest mmaps / frameSize := by
  obtain ⟨⟨bitmap, rest⟩, -, heq⟩ := Option.bind_eq_some_iff.mp hp
  obtain rfl := Option.some.inj heq
  exact freeEntries_limit

/-- A bit is clear when its frame is in a usable entry behind the bitmap's place, or
where it is behind the bitmap and clear in memory. -/
theorem freeEntries_free (hmap : ∀ e ∈ mmaps, e.Paged) (hcarve : carve (bitmapSize mmaps) mmaps = some (bitmap, rest))
    (frame : Nat) : (freeEntries (fullPmm mem bitmap mmaps) rest).used frame = false ↔
      (∃ e ∈ rest, e.type = limineMemmapUsable ∧ e.Has frame) ∨
        bitmapSize mmaps ≤ frame / 8 ∧ bitTest (fun i => mem (bitmap + i)) frame = false := by
  have hused := freeEntries_used (p := fullPmm mem bitmap mmaps)
    (carve_paged (bitmapSize_dvd mmaps) hmap hcarve) frame
  rw [fullPmm_used] at hused
  rw [← Bool.not_eq_true, hused, not_and_or, not_or, not_lt, Bool.not_eq_true, or_comm]
  refine or_congr ?_ Iff.rfl
  constructor
  · intro h
    by_contra hnone
    exact h fun e he htype hhas => hnone ⟨e, he, htype, hhas⟩
  · rintro ⟨e, he, htype, hhas⟩ h
    exact h e he htype hhas

/-- Below the limit, the frames that `pmm_init` leaves free are the allocatable ones. -/
theorem allocatable_iff (hmap : ∀ e ∈ mmaps, e.Framed) (hp : pmmInit mem mmaps = some p) (frame : Nat) :
    Allocatable mem mmaps frame ↔ 1 ≤ frame ∧ frame < p.limit ∧ p.used frame = false := by
  obtain ⟨⟨bitmap, rest⟩, hcarve, heq⟩ := Option.bind_eq_some_iff.mp hp
  obtain rfl := Option.some.inj heq
  rw [freeEntries_limit, freeEntries_free (fun e he => (hmap e he).paged) hcarve]
  constructor
  · rintro ⟨bitmap', rest', hcarve', hpos, hlt, h⟩
    rw [hcarve] at hcarve'
    cases hcarve'
    exact ⟨hpos, hlt, h⟩
  · rintro ⟨hpos, hlt, h⟩
    exact ⟨bitmap, rest, hcarve, hpos, hlt, h⟩

theorem carve_isSome (h : ∃ e ∈ mmaps, e.type = limineMemmapUsable ∧ size ≤ e.length) :
    ∃ r, carve size mmaps = some r := by
  induction mmaps with
  | nil => simp at h
  | cons e es ih =>
      rw [carve]
      have hlater : (∃ d ∈ es, d.type = limineMemmapUsable ∧ size ≤ d.length) →
          ∃ r, (carve size es).map (fun r => (r.1, e :: r.2)) = some r := by
        intro h
        obtain ⟨r, hr⟩ := ih h
        exact ⟨_, by rw [hr, Option.map_some]⟩
      obtain ⟨d, hd, htype, hfits⟩ := h
      split
      · rename_i hskip
        refine hlater ⟨d, (List.mem_cons.mp hd).resolve_left ?_, htype, hfits⟩
        rintro rfl
        exact skipped_iff.mp hskip htype
      · split
        · exact ⟨_, rfl⟩
        · rename_i hshort
          refine hlater ⟨d, (List.mem_cons.mp hd).resolve_left ?_, htype, hfits⟩
          rintro rfl
          exact hshort hfits

end Spec

/-! ### Which frames are free -/

def MemmapEntry.span (e : MemmapEntry) : Span := ⟨e.base, e.length⟩

/-- A usable entry has no byte in common with another entry. -/
def MemmapEntry.Apart (d e : MemmapEntry) : Prop :=
  d.type = limineMemmapUsable ∨ e.type = limineMemmapUsable → ∀ x, d.span.Has x → ¬ e.span.Has x

/-- A memory map as the bootloader promises it, with an entry that has room for the
bitmap. -/
structure LimineMap (mmaps : List MemmapEntry) : Prop where
  paged : ∀ e ∈ mmaps, e.Paged
  apart : mmaps.Pairwise MemmapEntry.Apart
  room : ∃ e ∈ mmaps, e.type = limineMemmapUsable ∧ bitmapSize mmaps ≤ e.length

/-- Where the bitmap is put. -/
def bitmapBase (mmaps : List MemmapEntry) : Option Nat := (carve (bitmapSize mmaps) mmaps).map Prod.fst

/-- The frame is one of those that hold the bitmap. -/
def InBitmap (mmaps : List MemmapEntry) (bitmap frame : Nat) : Prop :=
  (⟨bitmap, bitmapSize mmaps⟩ : Span).Has (frameSize * frame)

section Classify
variable {mmaps before after : List MemmapEntry} {d e : MemmapEntry} {size frame : Nat}

theorem MemmapEntry.Apart.symm (h : d.Apart e) : e.Apart d :=
  fun htype x he hd => h htype.symm x hd he

/-- What is left of the entry is the entry without the bitmap's place. -/
theorem MemmapEntry.Paged.has_behind (he : e.Paged) (htype : e.type = limineMemmapUsable) (hfits : size ≤ e.length) :
    (e.behind size).Has frame ↔ e.Has frame ∧ ¬ (⟨e.base, size⟩ : Span).Has (frameSize * frame) := by
  have hend := (he htype).2.2
  simp only [MemmapEntry.Has, MemmapEntry.behind, Span.Has, Span.hi]
  rcases Nat.lt_or_eq_of_le (show e.base + size ≤ 2 ^ 64 by omega) with hlt | heq
  · rw [Nat.mod_eq_of_lt hlt]
    omega
  · -- The bitmap takes the whole of an entry that ends with the address space.
    rw [heq, Nat.mod_self]
    omega

/-- A frame of another usable entry does not hold the bitmap. -/
theorem MemmapEntry.Apart.not_bitmap (h : d.Apart e) (hd : d.type = limineMemmapUsable) (hhas : d.Has frame)
    (hfits : size ≤ e.length) : ¬ (⟨e.base, size⟩ : Span).Has (frameSize * frame) := by
  rintro ⟨hlo, hhi⟩
  refine h (.inl hd) (frameSize * frame) hhas ⟨hlo, ?_⟩
  exact Nat.lt_of_lt_of_le hhi (Nat.add_le_add_left hfits e.base)

theorem exists_mem_middle {P : MemmapEntry → Prop} :
    (∃ d ∈ before ++ e :: after, P d) ↔ P e ∨ ∃ d ∈ before ++ after, P d := by
  simp only [List.mem_append, List.mem_cons, or_and_right, exists_or, exists_eq_left]
  exact or_left_comm

/-- The usable frames behind the bitmap's place are the usable frames that do not hold
the bitmap. -/
theorem usable_behind_iff (hpaged : e.Paged) (hapart : (before ++ e :: after).Pairwise MemmapEntry.Apart)
    (htype : e.type = limineMemmapUsable) (hfits : size ≤ e.length) :
    (∃ d ∈ before ++ e.behind size :: after, d.type = limineMemmapUsable ∧ d.Has frame) ↔
      (∃ d ∈ before ++ e :: after, d.type = limineMemmapUsable ∧ d.Has frame) ∧
        ¬ (⟨e.base, size⟩ : Span).Has (frameSize * frame) := by
  have hother : ∀ d ∈ before ++ after, d.Apart e := by
    obtain ⟨-, hafter, hbefore⟩ := List.pairwise_append.mp hapart
    intro d hd
    rcases List.mem_append.mp hd with hd | hd
    · exact hbefore d hd e List.mem_cons_self
    · exact ((List.pairwise_cons.mp hafter).1 d hd).symm
  rw [exists_mem_middle, exists_mem_middle]
  constructor
  · rintro (⟨-, hhas⟩ | ⟨d, hd, hdtype, hhas⟩)
    · obtain ⟨hwhole, hout⟩ := (hpaged.has_behind htype hfits).mp hhas
      exact ⟨.inl ⟨htype, hwhole⟩, hout⟩
    · exact ⟨.inr ⟨d, hd, hdtype, hhas⟩, (hother d hd).not_bitmap hdtype hhas hfits⟩
  · rintro ⟨⟨-, hhas⟩ | hrest, hout⟩
    · exact .inl ⟨htype, (hpaged.has_behind htype hfits).mpr ⟨hhas, hout⟩⟩
    · exact .inr hrest

/-- After `pmm_init`, the bit of a frame that the bitmap has a bit for is clear exactly
when the frame lies in a usable entry and does not hold the bitmap. -/
theorem pmm_init_classifies (mem : Mem) {mmaps : List MemmapEntry} (h : LimineMap mmaps) :
    ∃ p bitmap, pmmInit mem mmaps = some p ∧ bitmapBase mmaps = some bitmap ∧
      ∀ frame, frame < min p.limit (8 * bitmapSize mmaps) → (p.used frame = false ↔
        (∃ e ∈ mmaps, e.type = limineMemmapUsable ∧ e.Has frame) ∧ ¬ InBitmap mmaps bitmap frame) := by
  obtain ⟨⟨bitmap, rest⟩, hcarve⟩ := carve_isSome h.room
  refine ⟨_, bitmap, Option.bind_eq_some_iff.mpr ⟨_, hcarve, rfl⟩, by rw [bitmapBase, hcarve]; rfl, ?_⟩
  intro frame hframe
  have hbit : ¬ bitmapSize mmaps ≤ frame / 8 := by omega
  rw [freeEntries_free h.paged hcarve, or_iff_left fun hbehind => hbit hbehind.1]
  obtain ⟨before, e, after, hmmaps, rfl, htype, hfits, rfl⟩ := carve_some hcarve
  have hmem : e ∈ mmaps := by simp [hmmaps]
  rw [usable_behind_iff (h.paged e hmem) (hmmaps ▸ h.apart) htype hfits, InBitmap, ← hmmaps]

end Classify

/-- Two usable entries, with one between them that is not. -/
def threeEntries : List MemmapEntry := [⟨0x1000, 0x2000, 0⟩, ⟨0x3000, 0x1d000, 1⟩, ⟨0x20000, 0x2000, 0⟩]

theorem threeEntries_limineMap : LimineMap threeEntries := by
  refine ⟨?_, ?_, ⟨⟨0x1000, 0x2000, 0⟩, by simp [threeEntries], rfl, by decide⟩⟩
  · simp only [threeEntries, List.forall_mem_cons, MemmapEntry.Paged]
    decide
  · have hspans : threeEntries.Pairwise fun d e => d.span.Apart e.span := by decide
    apply hspans.imp
    intro d e h _ x hx
    exact h.not_has hx

/-- The bitmap is in frame 1; frames 2, 32 and 33 are free. -/
theorem threeEntries_classified : ∃ p, pmmInit (fun _ => 0) threeEntries = some p ∧
    p.used 1 = true ∧ p.used 2 = false ∧ p.used 3 = true ∧ p.used 33 = false := by
  obtain ⟨p, bitmap, hp, hbase, hall⟩ := pmm_init_classifies (fun _ => 0) threeEntries_limineMap
  have hlimit : p.limit = 34 := pmmInit_limit hp
  have hsize : bitmapSize threeEntries = 4096 := by decide
  obtain rfl : 0x1000 = bitmap := Option.some.inj ((show bitmapBase threeEntries = some 0x1000 by decide).symm.trans hbase)
  rw [hlimit, hsize] at hall
  simp only [InBitmap, threeEntries, List.exists_mem_cons_iff, MemmapEntry.Has, Span.Has, Span.hi] at hall
  refine ⟨p, hp, ?_, ?_, ?_, ?_⟩
  · exact Bool.of_not_eq_false fun h => absurd ((hall 1 (by decide)).mp h) (by decide)
  · exact (hall 2 (by decide)).mpr (by decide)
  · exact Bool.of_not_eq_false fun h => absurd ((hall 3 (by decide)).mp h) (by decide)
  · exact (hall 33 (by decide)).mpr (by decide)

/-! ### What can be handed out -/

/-- A run of the allocator leads to a request that is answered with the address. -/
def CanReturn (p : Pmm) (a : Nat) : Prop :=
  ∃ w n, Relation.ReflTransGen PmmStep ⟨p, []⟩ w ∧ 0 < n ∧ (pmmMalloc w.pmm n).1 = a ∧ a ≠ 0

section Returns
variable {p : Pmm} {frame : Nat}

theorem firstFit_one (hpos : 1 ≤ frame) (hlt : frame < p.limit) (hfree : p.used frame = false)
    (hbelow : ∀ i, 1 ≤ i → i < frame → p.used i = true) : FirstFit p 1 frame := by
  refine ⟨hpos, hlt, fun i hlo hhi => ?_, fun a ha hlt => ⟨a, le_refl a, a.lt_succ_self, hbelow a ha hlt⟩⟩
  obtain rfl : i = frame := by omega
  exact hfree

/-- Requests for one frame take what is free below `frame`, until it is the first. -/
theorem exists_run_first {w : PmmRun} (hpos : 1 ≤ frame) (hlt : frame < w.pmm.limit)
    (hfree : w.pmm.used frame = false) {m : Nat}
    (hbelow : ∀ i, 1 ≤ i → i + m < frame → w.pmm.used i = true) :
    ∃ w', Relation.ReflTransGen PmmStep w w' ∧ (pmmMalloc w'.pmm 1).1 = frameSize * frame := by
  induction m generalizing w with
  | zero => exact ⟨w, .refl, ((firstFit_one hpos hlt hfree hbelow).malloc (by decide)).1⟩
  | succ m ih =>
      by_cases hall : ∀ i, 1 ≤ i → i + m < frame → w.pmm.used i = true
      · exact ih hlt hfree hall
      · push Not at hall
        obtain ⟨first, hone, hless, hunused⟩ := hall
        have hlast : ¬ first + (m + 1) < frame := fun h => hunused (hbelow first hone h)
        have hfirst : FirstFit w.pmm 1 first :=
          firstFit_one hone (by omega) (Bool.not_eq_true _ ▸ hunused) fun i hi hlt => hbelow i hi (by omega)
        obtain ⟨hptr, ht⟩ := hfirst.malloc (by decide)
        have hne : (pmmMalloc w.pmm 1).1 ≠ 0 := by
          rw [hptr]
          exact Nat.mul_ne_zero (by decide) (by omega)
        have hstep := PmmStep.malloc (w := w) (show 0 < 1 by decide) hne
        have hfree' : (pmmMalloc w.pmm 1).2.used frame = false := by
          rw [ht.used, hfree, decide_eq_false (by omega), Bool.false_or]
        have hbelow' : ∀ i, 1 ≤ i → i + m < frame → (pmmMalloc w.pmm 1).2.used i = true := by
          intro i hi hlt
          rw [ht.used, Bool.or_eq_true, decide_eq_true_iff]
          by_cases hif : i = first
          · exact .inl (by omega)
          · exact .inr (hbelow i hi (by omega))
        obtain ⟨w', hrun, hreturn⟩ := ih (w := ⟨(pmmMalloc w.pmm 1).2, ((pmmMalloc w.pmm 1).1, 1) :: w.live⟩)
          (ht.limit ▸ hlt) hfree' hbelow'
        exact ⟨w', hrun.head hstep, hreturn⟩

/-- The free frames below the limit are those that can be handed out. -/
theorem canReturn_iff {a : Nat} : CanReturn p a ↔
    ∃ frame, (1 ≤ frame ∧ frame < p.limit ∧ p.used frame = false) ∧ a = frameSize * frame := by
  constructor
  · rintro ⟨w, n, hrun, hn, rfl, hne⟩
    have hw := reflTransGen_invariant PmmInv.step (PmmInv.init p) (hrun.tail (.malloc hn hne))
    have halloc : ((pmmMalloc w.pmm n).1, n) ∈ ((pmmMalloc w.pmm n).1, n) :: w.live := List.mem_cons_self
    obtain ⟨hlo, hhi⟩ := hw.within _ halloc
    obtain ⟨heq, hpos⟩ := hw.aligned _ halloc
    have hlast : (allocSpan ((pmmMalloc w.pmm n).1, n)).hi = (allocSpan ((pmmMalloc w.pmm n).1, n)).lo + n := rfl
    exact ⟨_, ⟨hlo, by omega, hw.fresh _ halloc _ ⟨le_refl _, by omega⟩⟩, heq⟩
  · rintro ⟨frame, ⟨hpos, hlt, hfree⟩, rfl⟩
    obtain ⟨w, hrun, hreturn⟩ := exists_run_first (w := ⟨p, []⟩) (m := frame) hpos hlt hfree
      fun i _ h => absurd h (by omega)
    exact ⟨w, 1, hrun, by decide, hreturn, Nat.mul_ne_zero (by decide) (by omega)⟩

end Returns

end Flan.Memory
