import Flan.Memory.PmmInit

/-! The bits of the bitmap that the allocator reads and writes, and the memory maps for
which they all lie in the bytes that `pmm_init` reserves. -/
namespace Flan.Memory
open Flan.Lib

/-! ### Accesses -/

/-- The bits that `pmm_free` clears. -/
def freeBits (ptr frames : Nat) : List Nat :=
  let frame := ptr / frameSize
  List.range' frame ((frames + frame) % 2 ^ 64 - frame)

/-- The bits that the scan of `pmm_malloc` tests. -/
def scanBits (p : Pmm) (wanted : Nat) : (left frame available : Nat) → List Nat
  | 0, _, _ => []
  | left+1, frame, available =>
      frame ::
        if p.used frame = false then
          if available + 1 = wanted then [] else scanBits p wanted left (frame + 1) (available + 1)
        else if available ≠ wanted then scanBits p wanted left (frame + 1) 0
        else []

/-- The bits that `pmm_malloc` tests, and those it sets. -/
def mallocBits (p : Pmm) (wanted : Nat) : List Nat :=
  scanBits p wanted (p.limit - 1) 1 0 ++
    match pmmScan p wanted (p.limit - 1) 1 0 with
    | none => []
    | some frame => (List.range wanted).map fun i => frame - i

def entryBits (e : MemmapEntry) : List Nat :=
  (List.range ((e.length + frameSize - 1) / frameSize)).flatMap fun t =>
    freeBits ((e.base + t * frameSize) % 2 ^ 64) 1

/-- The bits that the calls of `pmm_free` in `pmm_init` clear. -/
def initBits (mmaps : List MemmapEntry) : List Nat :=
  match carve (bitmapSize mmaps) mmaps with
  | none => []
  | some (_, rest) => (rest.filter fun e => e.type = limineMemmapUsable).flatMap entryBits

section Accesses
variable {p q : Pmm} {n left frame available i last : Nat} {mmaps : List MemmapEntry} {e : MemmapEntry}

theorem pmmFree_elsewhere {ptr frames : Nat} (h : i ∉ freeBits ptr frames) :
    (pmmFree p ptr frames).used i = p.used i := by
  simp only [freeBits, List.mem_range'_1] at h
  rw [pmmFree, clearFrom_used, decide_eq_false h, Bool.not_false, Bool.true_and]

/-- The scan goes by the bits it tests. -/
theorem pmmScan_congr (h : ∀ i ∈ scanBits p n left frame available, q.used i = p.used i) :
    pmmScan q n left frame available = pmmScan p n left frame available := by
  induction left generalizing frame available with
  | zero => rfl
  | succ left ih =>
      rw [scanBits, List.forall_mem_cons] at h
      obtain ⟨hhere, hrest⟩ := h
      rw [pmmScan, pmmScan, hhere]
      by_cases hused : p.used frame = false
      · rw [if_pos hused] at hrest ⊢
        rw [if_pos hused]
        split
        · rfl
        · rename_i hmore
          rw [if_neg hmore] at hrest
          exact ih hrest
      · rw [if_neg hused] at hrest ⊢
        rw [if_neg hused]
        split
        · rename_i hmore
          rw [if_pos hmore] at hrest
          exact ih hrest
        · rfl

/-- The run found ends at a frame that was tested. -/
theorem mem_scanBits (h : pmmScan p n left frame available = some last) :
    last ∈ scanBits p n left frame available := by
  induction left generalizing frame available with
  | zero => cases h
  | succ left ih =>
      rw [pmmScan] at h
      rw [scanBits]
      by_cases hused : p.used frame = false
      · rw [if_pos hused] at h ⊢
        split at h
        · cases h
          exact List.mem_cons_self
        · rename_i hmore
          rw [if_neg hmore]
          exact List.mem_cons_of_mem _ (ih h)
      · rw [if_neg hused] at h ⊢
        split at h
        · rename_i hmore
          rw [if_pos hmore]
          exact List.mem_cons_of_mem _ (ih h)
        · cases h
          exact List.mem_cons_self

theorem scanBits_bound (h : i ∈ scanBits p n left frame available) : frame ≤ i ∧ i < frame + left := by
  induction left generalizing frame available with
  | zero => cases h
  | succ left ih =>
      rw [scanBits] at h
      rcases List.mem_cons.mp h with rfl | h
      · omega
      · have hnext : ∀ {k}, i ∈ scanBits p n left (frame + 1) k → frame ≤ i ∧ i < frame + (left + 1) := by
          intro k hk
          have := ih hk
          omega
        split at h
        · split at h
          · cases h
          · exact hnext h
        · split at h
          · exact hnext h
          · cases h

/-- A request for more frames than there are tests them all. -/
theorem scanBits_all (hmany : available + left < n) (hlo : frame ≤ i) (hhi : i < frame + left) :
    i ∈ scanBits p n left frame available := by
  induction left generalizing frame available with
  | zero => omega
  | succ left ih =>
      rw [scanBits]
      rcases Nat.eq_or_lt_of_le hlo with rfl | hlt
      · exact List.mem_cons_self
      · apply List.mem_cons_of_mem
        rw [if_neg (show ¬ available + 1 = n by omega), if_pos (show available ≠ n by omega)]
        split
        · exact ih (by omega) hlt (by omega)
        · exact ih (by omega) hlt (by omega)

theorem mallocBits_bound (h : i ∈ mallocBits p n) : i < p.limit := by
  rcases List.mem_append.mp h with hscan | hset
  · have := scanBits_bound hscan
    omega
  · split at hset
    · cases hset
    · rename_i last hlast
      obtain ⟨k, -, rfl⟩ := List.mem_map.mp hset
      have := scanBits_bound (mem_scanBits hlast)
      omega

/-- What `pmm_malloc` returns is a matter of the bits it accesses, and it changes no
other bit. -/
theorem pmmMalloc_accesses (hlimit : q.limit = p.limit) (h : ∀ i ∈ mallocBits p n, q.used i = p.used i) :
    (pmmMalloc q n).1 = (pmmMalloc p n).1 ∧
      ∀ i, i ∉ mallocBits p n → (pmmMalloc p n).2.used i = p.used i := by
  have hscan : pmmScan q n (q.limit - 1) 1 0 = pmmScan p n (p.limit - 1) 1 0 := by
    rw [hlimit]
    exact pmmScan_congr fun i hi => h i (List.mem_append_left _ hi)
  rw [mallocBits] at h ⊢
  rw [pmmMalloc, pmmMalloc, hscan]
  cases hfound : pmmScan p n (p.limit - 1) 1 0 with
  | none => exact ⟨rfl, fun i _ => rfl⟩
  | some frame =>
      refine ⟨rfl, fun i hi => ?_⟩
      have hset : ∀ count, count ≤ n → (setBack p frame count).used i = p.used i := by
        intro count hcount
        induction count with
        | zero => rfl
        | succ k ih =>
            have hne : i ≠ frame - k := by
              rintro rfl
              apply hi
              exact List.mem_append_right _ (List.mem_map.mpr ⟨k, List.mem_range.mpr hcount, rfl⟩)
            rw [setBack, Pmm.setBit_used, ih (by omega), decide_eq_false hne, Bool.false_or]
      exact hset n (le_refl n)

theorem mem_entryBits (he : e.Paged) (htype : e.type = limineMemmapUsable) : i ∈ entryBits e ↔ e.Has i := by
  obtain ⟨⟨b, hb⟩, ⟨k, hk⟩, hend⟩ := he htype
  rw [hb, hk, frameSize] at hend
  have hframes : (e.length + frameSize - 1) / frameSize = k := by
    rw [hk, frameSize]
    omega
  have hbit : ∀ t, t < k → freeBits ((e.base + t * frameSize) % 2 ^ 64) 1 = [b + t] := by
    intro t ht
    have hptr : (e.base + t * frameSize) % 2 ^ 64 = frameSize * (b + t) := by
      rw [hb, frameSize]
      omega
    have hone : (1 + (b + t)) % 2 ^ 64 - (b + t) = 1 := by omega
    rw [freeBits, hptr, Nat.mul_div_cancel_left _ (by decide)]
    simp only [hone]
    rfl
  rw [entryBits, List.mem_flatMap, hframes, MemmapEntry.Has, hb, hk, frameSize]
  constructor
  · rintro ⟨t, ht, hi⟩
    rw [List.mem_range] at ht
    rw [← frameSize, ← hb, hbit t ht, List.mem_singleton] at hi
    omega
  · intro hi
    refine ⟨i - b, List.mem_range.mpr (by omega), ?_⟩
    rw [← frameSize, ← hb, hbit _ (by omega), List.mem_singleton]
    omega

theorem mem_initBits (hmap : ∀ e ∈ mmaps, e.Paged) : i ∈ initBits mmaps ↔
    ∃ bitmap rest, carve (bitmapSize mmaps) mmaps = some (bitmap, rest) ∧
      ∃ e ∈ rest, e.type = limineMemmapUsable ∧ e.Has i := by
  unfold initBits
  constructor
  · intro h
    split at h
    · cases h
    · rename_i bitmap rest hcarve
      obtain ⟨e, he, hi⟩ := List.mem_flatMap.mp h
      obtain ⟨hmem, htype⟩ := List.mem_filter.mp he
      have htype := of_decide_eq_true htype
      have hpaged := carve_paged (bitmapSize_dvd mmaps) hmap hcarve e hmem
      exact ⟨bitmap, rest, hcarve, e, hmem, htype, (mem_entryBits hpaged htype).mp hi⟩
  · rintro ⟨bitmap, rest, hcarve, e, hmem, htype, hhas⟩
    have hpaged := carve_paged (bitmapSize_dvd mmaps) hmap hcarve e hmem
    rw [hcarve]
    exact List.mem_flatMap.mpr ⟨e, List.mem_filter.mpr ⟨hmem, decide_eq_true htype⟩,
      (mem_entryBits hpaged htype).mpr hhas⟩

end Accesses

/-! ### The limit -/

section Limit
variable {mmaps es : List MemmapEntry} {e : MemmapEntry} {frame h : Nat}

theorem le_highestOf : h ≤ highestOf es h := by
  induction es generalizing h with
  | nil => exact le_refl h
  | cons e es ih =>
      rw [highestOf]
      split
      · exact ih
      · refine le_trans ?_ ih
        split <;> omega

theorem top_le_highestOf (he : e ∈ es) (htype : e.type = limineMemmapUsable) :
    (e.base + e.length) % 2 ^ 64 ≤ highestOf es h := by
  induction es generalizing h with
  | nil => cases he
  | cons d es ih =>
      rw [highestOf]
      split
      · rename_i hskip
        refine ih ((List.mem_cons.mp he).resolve_left ?_)
        rintro rfl
        exact skipped_iff.mp hskip htype
      · rcases List.mem_cons.mp he with rfl | he
        · refine le_trans ?_ le_highestOf
          split <;> omega
        · exact ih he

/-- The frames of usable entries are below the limit. -/
theorem MemmapEntry.Has.lt_limit (hhas : e.Has frame) (hmap : ∀ e ∈ mmaps, e.Framed) (he : e ∈ mmaps)
    (htype : e.type = limineMemmapUsable) : frame < highest mmaps / frameSize := by
  have htop : (e.base + e.length) % 2 ^ 64 ≤ highest mmaps := top_le_highestOf he htype
  obtain ⟨⟨b, hb⟩, ⟨k, hk⟩, hend⟩ := hmap e he htype
  rw [Nat.mod_eq_of_lt hend, hb, hk] at htop
  rw [MemmapEntry.Has, hb, hk] at hhas
  rw [frameSize] at *
  omega

/-- Carving takes frames away only. -/
theorem usable_of_carve {size bitmap : Nat} {rest : List MemmapEntry} (hmap : ∀ e ∈ mmaps, e.Paged)
    (hcarve : carve size mmaps = some (bitmap, rest))
    (h : ∃ e ∈ rest, e.type = limineMemmapUsable ∧ e.Has frame) :
    ∃ e ∈ mmaps, e.type = limineMemmapUsable ∧ e.Has frame := by
  obtain ⟨before, d, after, rfl, rfl, htype, hfits, -⟩ := carve_some hcarve
  have hpaged := hmap d (by simp)
  rw [exists_mem_middle] at h ⊢
  refine h.imp_left ?_
  rintro ⟨-, hhas⟩
  exact ⟨htype, ((hpaged.has_behind htype hfits).mp hhas).1⟩

/-- A bitmap of no bytes takes no frame away. -/
theorem usable_carve_zero {bitmap : Nat} {rest : List MemmapEntry} (hmap : ∀ e ∈ mmaps, e.Paged)
    (hcarve : carve 0 mmaps = some (bitmap, rest))
    (h : ∃ e ∈ mmaps, e.type = limineMemmapUsable ∧ e.Has frame) :
    ∃ e ∈ rest, e.type = limineMemmapUsable ∧ e.Has frame := by
  obtain ⟨before, d, after, rfl, rfl, htype, hfits, -⟩ := carve_some hcarve
  have hpaged := hmap d (by simp)
  rw [exists_mem_middle] at h ⊢
  refine h.imp_left ?_
  rintro ⟨-, hhas⟩
  refine ⟨htype, (hpaged.has_behind htype hfits).mpr ⟨hhas, ?_⟩⟩
  rintro ⟨hlo, hhi⟩
  exact Nat.not_lt.mpr hlo hhi

/-- `highest / FRAME_SIZE / 8` is cut off before it is rounded up, so up to seven frames
behind a multiple of 32768 have no bit. -/
theorem limit_le_bits_iff (mmaps : List MemmapEntry) : highest mmaps / frameSize ≤ 8 * bitmapSize mmaps ↔
    highest mmaps / frameSize % 32768 = 0 ∨ 8 ≤ highest mmaps / frameSize % 32768 := by
  have hlt : highest mmaps < 2 ^ 64 := highestOf_lt (by decide)
  rw [bitmapSize, alignUpFrame]
  simp only [frameSize]
  omega

end Limit

/-! ### Later calls -/

/-- The allocator after any calls of `pmm_malloc` and `pmm_free`. -/
inductive Later (p : Pmm) : Pmm → Prop
  | refl : Later p p
  | malloc {q : Pmm} (h : Later p q) (n : Nat) : Later p (pmmMalloc q n).2
  | free {q : Pmm} (h : Later p q) (ptr n : Nat) : Later p (pmmFree q ptr n)

theorem Later.limit {p q : Pmm} (h : Later p q) : q.limit = p.limit := by
  induction h with
  | refl => rfl
  | malloc _ n ih => exact (pmmMalloc_limit _ n).trans ih
  | free _ ptr n ih => exact (pmmFree_limit _ ptr n).trans ih

/-- Every bit that `pmm_init` or a later `pmm_malloc` accesses is in the bytes reserved
for the bitmap. -/
structure BitmapCovers (mem : Mem) (mmaps : List MemmapEntry) : Prop where
  init : ∀ i ∈ initBits mmaps, i < 8 * bitmapSize mmaps
  later : ∀ p q, pmmInit mem mmaps = some p → Later p q → ∀ n, ∀ i ∈ mallocBits q n, i < 8 * bitmapSize mmaps

/-- The number of frames is a multiple of 32768 or at least eight above one; or there is
one frame, which is not usable. -/
def BitsSuffice (mmaps : List MemmapEntry) : Prop :=
  highest mmaps / frameSize % 32768 = 0 ∨ 8 ≤ highest mmaps / frameSize % 32768 ∨
    highest mmaps / frameSize = 1 ∧ ∀ e ∈ mmaps, e.type = limineMemmapUsable → ¬ e.Has 0

section Covers
variable {mem : Mem} {mmaps : List MemmapEntry}

/-- `pmm_init` clears bits of usable entries only. -/
theorem usable_of_initBits {i : Nat} (hmap : ∀ e ∈ mmaps, e.Framed) (hi : i ∈ initBits mmaps) :
    ∃ e ∈ mmaps, e.type = limineMemmapUsable ∧ e.Has i := by
  have hpaged : ∀ e ∈ mmaps, e.Paged := fun e he => (hmap e he).paged
  obtain ⟨bitmap, rest, hcarve, hrest⟩ := (mem_initBits hpaged).mp hi
  exact usable_of_carve hpaged hcarve hrest

theorem BitmapCovers.of_limit (hmap : ∀ e ∈ mmaps, e.Framed)
    (hle : highest mmaps / frameSize ≤ 8 * bitmapSize mmaps) : BitmapCovers mem mmaps := by
  constructor
  · intro i hi
    obtain ⟨e, he, htype, hhas⟩ := usable_of_initBits hmap hi
    exact Nat.lt_of_lt_of_le (hhas.lt_limit hmap he htype) hle
  · intro p q hp hlater n i hi
    have hlt := mallocBits_bound hi
    rw [hlater.limit, pmmInit_limit hp] at hlt
    exact Nat.lt_of_lt_of_le hlt hle

/-- Frame 0 is the only one, and neither `pmm_init` nor `pmm_malloc` looks at its bit. -/
theorem BitmapCovers.of_unusable (hmap : ∀ e ∈ mmaps, e.Framed) (hone : highest mmaps / frameSize = 1)
    (hno : ∀ e ∈ mmaps, e.type = limineMemmapUsable → ¬ e.Has 0) : BitmapCovers mem mmaps := by
  constructor
  · intro i hi
    obtain ⟨e, he, htype, hhas⟩ := usable_of_initBits hmap hi
    have hlt := hhas.lt_limit hmap he htype
    obtain rfl : i = 0 := by omega
    exact absurd hhas (hno e he htype)
  · intro p q hp hlater n i hi
    have hlimit : q.limit - 1 = 0 := by rw [hlater.limit, pmmInit_limit hp, hone]
    rw [mallocBits, hlimit] at hi
    cases hi

/-- Every bit that is accessed is in the bitmap exactly when the number of frames is as
above. -/
theorem bitmap_covers_iff (mem : Mem) {mmaps : List MemmapEntry} (hmap : ∀ e ∈ mmaps, e.Framed)
    (hroom : ∃ e ∈ mmaps, e.type = limineMemmapUsable ∧ bitmapSize mmaps ≤ e.length) :
    BitmapCovers mem mmaps ↔ BitsSuffice mmaps := by
  have hpaged : ∀ e ∈ mmaps, e.Paged := fun e he => (hmap e he).paged
  have hbits := limit_le_bits_iff mmaps
  obtain ⟨⟨bitmap, rest⟩, hcarve⟩ := carve_isSome hroom
  constructor
  · intro h
    by_cases hle : highest mmaps / frameSize ≤ 8 * bitmapSize mmaps
    · exact (hbits.mp hle).imp_right .inl
    · refine .inr (.inr ?_)
      -- The last frame is tested when more frames are wanted than there are.
      have hone : highest mmaps / frameSize = 1 := by
        by_contra hne
        have hp : pmmInit mem mmaps = some (freeEntries (fullPmm mem bitmap mmaps) rest) :=
          Option.bind_eq_some_iff.mpr ⟨_, hcarve, rfl⟩
        have hlimit := pmmInit_limit hp
        have hlast := h.later _ _ hp .refl (highest mmaps / frameSize) (highest mmaps / frameSize - 1) (by
          refine List.mem_append_left _ (scanBits_all ?_ ?_ ?_) <;> omega)
        omega
      refine ⟨hone, fun e he htype hhas => ?_⟩
      have hempty : bitmapSize mmaps = 0 := by omega
      rw [hempty] at hcarve
      have hrest := usable_carve_zero hpaged hcarve ⟨e, he, htype, hhas⟩
      rw [← hempty] at hcarve
      have hin := h.init 0 ((mem_initBits hpaged).mpr ⟨bitmap, rest, hcarve, hrest⟩)
      omega
  · rintro (hzero | hmore | ⟨hone, hno⟩)
    · exact .of_limit hmap (hbits.mpr (.inl hzero))
    · exact .of_limit hmap (hbits.mpr (.inr hmore))
    · exact .of_unusable hmap hone hno

end Covers

theorem threeEntries_covered : BitmapCovers (fun _ => 0) threeEntries := by
  refine (bitmap_covers_iff _ ?_ threeEntries_limineMap.room).mpr (.inr (.inl (by decide)))
  simp only [threeEntries, List.forall_mem_cons, MemmapEntry.Framed]
  decide

/-- Memory that ends one frame behind 128 MiB. -/
def oddEntries : List MemmapEntry := [⟨0x1000, 0x2000, 0⟩, ⟨0x8000000, 0x1000, 0⟩]

/-- The last frame of 32769 has bit 0 of byte 4096, and 4096 bytes are reserved. -/
theorem last_frame_has_no_bit : ¬ BitmapCovers (fun _ => 0) oddEntries := by
  intro h
  have hmem : 32768 ∈ initBits oddEntries := by decide
  exact absurd (h.init 32768 hmem) (by decide)

end Flan.Memory
