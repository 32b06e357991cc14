import Flan.Memory.VmmRun
import Flan.Proc.Elf

/-! The image that `elf_load` leaves in a pagemap, for files with any number of
segments at any addresses of the lower half. -/
namespace Flan.Proc
open Flan.Lib Flan.Memory Flan.Fs

/-! ### Files -/

def ehdrOf (f : File) : Ehdr := Ehdr.ofMem f.data

def phnumOf (f : File) : Nat := (ehdrOf f).phnum

def phdrAt (f : File) (i : Nat) : Phdr :=
  Phdr.ofMem fun x => f.data ((ehdrOf f).phoff + i * (ehdrOf f).phentsize + x)

/-- The address is on a page of the segment. -/
def Phdr.Covers (ph : Phdr) (virtual : Nat) : Prop :=
  ph.vaddr / frameSize ≤ virtual / frameSize ∧ virtual / frameSize ≤ (ph.vaddr + ph.memsz - 1) / frameSize

structure Phdr.Fits (f : File) (ph : Phdr) : Prop where
  nonempty : 0 < ph.filesz
  le : ph.filesz ≤ ph.memsz
  inFile : ph.offset + ph.filesz ≤ f.size
  small : ph.offset + ph.filesz < 2 ^ 31
  lower : ph.vaddr + ph.memsz ≤ 2 ^ 47

/-- A valid header, and the table of the program headers, are inside the file. -/
structure HeadersInside (f : File) : Prop where
  size : f.size < 2 ^ 64
  header : ehdrSize ≤ f.size
  valid : checkHeaders (ehdrOf f) = true
  table : ∀ i, i < phnumOf f → (ehdrOf f).phoff + i * (ehdrOf f).phentsize + phdrSize ≤ f.size

/-- A 64-bit file for x86-64 with its headers inside, whose segments are inside
it too and share no page. -/
structure Loadable (f : File) : Prop extends HeadersInside f where
  fits : ∀ i, i < phnumOf f → (phdrAt f i).type = ptLoad → (phdrAt f i).Fits f
  apart : ∀ i j, i < phnumOf f → j < phnumOf f → i ≠ j → (phdrAt f i).type = ptLoad →
    (phdrAt f j).type = ptLoad → ∀ va, (phdrAt f i).Covers va → ¬ (phdrAt f j).Covers va

section Reads
variable {f : File} {ph : Phdr} {count offset : Nat}

theorem readCount_inside (hsize : f.size < 2 ^ 64) (h : offset + count ≤ f.size) :
    f.readCount count offset = count := by
  rw [readCount_eq hsize (by omega)]
  omega

/-- A read inside the file. -/
theorem read_inside (hsize : f.size < 2 ^ 64) (h : offset + count ≤ f.size) :
    f.read count offset = (List.range count).map fun i => f.data (offset + i) := by
  rw [File.read, readCount_inside hsize h]

theorem readStruct_inside (hsize : f.size < 2 ^ 64) (h : offset + count ≤ f.size) (stack : Mem) {x : Nat}
    (hx : x < count) : f.readStruct stack count offset x = f.data (offset + x) := by
  rw [File.readStruct, read_inside hsize h, storeBytes_apply]
  simp [hx]

theorem Ehdr.ofMem_congr {m m' : Mem} (h : ∀ x, x < ehdrSize → m x = m' x) : Ehdr.ofMem m = Ehdr.ofMem m' := by
  have hread : ∀ a n, a + n ≤ ehdrSize → readLE m a n = readLE m' a n :=
    fun a n hn => readLE_congr fun x _ hx => h x (by omega)
  simp only [Ehdr.ofMem, hread _ _ (show 0 + 4 ≤ ehdrSize by decide),
    hread _ _ (show 4 + 1 ≤ ehdrSize by decide), hread _ _ (show 5 + 1 ≤ ehdrSize by decide),
    hread _ _ (show 18 + 2 ≤ ehdrSize by decide), hread _ _ (show 20 + 4 ≤ ehdrSize by decide),
    hread _ _ (show 24 + 8 ≤ ehdrSize by decide), hread _ _ (show 32 + 8 ≤ ehdrSize by decide),
    hread _ _ (show 54 + 2 ≤ ehdrSize by decide), hread _ _ (show 56 + 2 ≤ ehdrSize by decide)]

theorem Phdr.ofMem_congr {m m' : Mem} (h : ∀ x, x < phdrSize → m x = m' x) : Phdr.ofMem m = Phdr.ofMem m' := by
  have hread : ∀ a n, a + n ≤ phdrSize → readLE m a n = readLE m' a n :=
    fun a n hn => readLE_congr fun x _ hx => h x (by omega)
  simp only [Phdr.ofMem, hread _ _ (show 0 + 4 ≤ phdrSize by decide),
    hread _ _ (show 8 + 8 ≤ phdrSize by decide), hread _ _ (show 16 + 8 ≤ phdrSize by decide),
    hread _ _ (show 32 + 8 ≤ phdrSize by decide), hread _ _ (show 40 + 8 ≤ phdrSize by decide)]

theorem HeadersInside.ehdr_eq (hf : HeadersInside f) (header : Mem) :
    Ehdr.ofMem (f.readStruct header ehdrSize 0) = ehdrOf f := by
  refine Ehdr.ofMem_congr fun x hx => ?_
  rw [readStruct_inside hf.size (by rw [Nat.zero_add]; exact hf.header) _ hx, Nat.zero_add]

theorem HeadersInside.phdr_offset (hf : HeadersInside f) {i : Nat} (hi : i < phnumOf f) :
    ((ehdrOf f).phoff + i * (ehdrOf f).phentsize) % 2 ^ 64 = (ehdrOf f).phoff + i * (ehdrOf f).phentsize := by
  have htable := hf.table i hi
  have hsize := hf.size
  exact Nat.mod_eq_of_lt (by omega)

theorem HeadersInside.phdr_eq (hf : HeadersInside f) {i : Nat} (hi : i < phnumOf f) (stack : Mem) :
    Phdr.ofMem (f.readStruct stack phdrSize ((ehdrOf f).phoff + i * (ehdrOf f).phentsize)) = phdrAt f i :=
  Phdr.ofMem_congr fun _ hx => readStruct_inside hf.size (hf.table i hi) _ hx

theorem HeadersInside.phdr_read (hf : HeadersInside f) {i : Nat} (hi : i < phnumOf f) :
    ¬ readResult (f.readCount phdrSize ((ehdrOf f).phoff + i * (ehdrOf f).phentsize)) ≤ 0 := by
  rw [readCount_inside hf.size (hf.table i hi)]
  decide

theorem unaligned_eq : ph.unaligned = ph.vaddr % frameSize := Nat.and_two_pow_sub_one_eq_mod _ 12

/-- The pages that are mapped are those that the segment touches. -/
theorem Phdr.Fits.pages_eq (h : ph.Fits f) :
    ph.vaddr / frameSize + ph.pages = (ph.vaddr + ph.memsz - 1) / frameSize + 1 := by
  have hpos := h.nonempty
  have hle := h.le
  have hlow := h.lower
  rw [Phdr.pages, alignUpFrame, unaligned_eq, frameSize]
  omega

theorem Phdr.Fits.covers_iff (h : ph.Fits f) {va : Nat} :
    ph.Covers va ↔ ∃ i, i < ph.pages ∧ va / frameSize = ph.vaddr / frameSize + i := by
  have hpages := h.pages_eq
  rw [Phdr.Covers]
  constructor
  · intro hc
    exact ⟨va / frameSize - ph.vaddr / frameSize, by omega, by omega⟩
  · rintro ⟨i, hi, heq⟩
    omega

/-- The bytes that a segment has are within its frames. -/
theorem Phdr.Fits.inside (h : ph.Fits f) : ph.unaligned + ph.memsz ≤ ph.pages * frameSize := by
  have hpages := h.pages_eq
  have hpos := h.nonempty
  have hle := h.le
  rw [unaligned_eq]
  rw [frameSize] at hpages ⊢
  omega

end Reads

/-! ### What is to be shown -/

/-- Every entry on the way to the page is present and open to the user. -/
def UserAccess (m : Mem) (top virtual : Nat) : Prop := flagWalk pteUser m top (path virtual)

/-- The byte of memory that an address is mapped to. -/
def physical (m : Mem) (top virtual : Nat) : Nat :=
  (translation m top virtual &&& pteAddrMask) + virtual % frameSize

/-- The file's byte of a segment, or the zeros behind them. -/
def Phdr.byte (f : File) (ph : Phdr) (i : Nat) : Byte := if i < ph.filesz then f.data (ph.offset + i) else 0

section Load
variable {σ : Type} {F : FrameSource σ} {s s' s₁ : Vmm σ} {lev lev' lev₁ : Nat → Nat} {pagemap : Nat}
  {f : File} {ph : Phdr}

/-- The pagemap's tables are in order, and open to the user. -/
def OpenTables (F : FrameSource σ) (s : Vmm σ) (pagemap : Nat) : Prop :=
  ∃ lev, Tables F s lev ∧ lev pagemap = 4 ∧ Flagged pteUser s.mem lev

/-- Every request for frames is granted, those for tables included: a table
that cannot be had is all that `vmm_map_pages` can fail for. -/
inductive Supplied (F : FrameSource σ) (pagemap : Nat) (f : File) : (left i : Nat) → Vmm σ → Prop
  | done {i : Nat} {s : Vmm σ} : Supplied F pagemap f 0 i s
  | load {left i : Nat} {s : Vmm σ} (htype : (phdrAt f i).type = ptLoad)
      (hne : (pmmCalloc F s (phdrAt f i).pages).1 ≠ 0)
      (hmap : (vmmMapPages F (pmmCalloc F s (phdrAt f i).pages).2 pagemap
        (pmmCalloc F s (phdrAt f i).pages).1 (phdrAt f i).vaddr (ptePresent ||| pteWritable ||| pteUser)
        (phdrAt f i).pages).isSome)
      (hrest : ∀ frames s', loadSegment F pagemap f s (phdrAt f i) = some (frames, s') →
        Supplied F pagemap f left (i+1) s') : Supplied F pagemap f (left+1) i s
  | skip {left i : Nat} {s : Vmm σ} (htype : (phdrAt f i).type ≠ ptLoad)
      (hrest : Supplied F pagemap f left (i+1) s) : Supplied F pagemap f (left+1) i s

/-- The segment is in frames of its own from `b` on, and mapped to them. -/
structure Placed (F : FrameSource σ) (s : Vmm σ) (lev : Nat → Nat) (pagemap : Nat) (f : File) (ph : Phdr)
    (b : Nat) : Prop where
  below : b + ph.pages ≤ 2 ^ 40
  frames : ∀ k, b ≤ k → k < b + ph.pages → F.Taken s.src k ∧ lev (frameSize * k) = 0
  leaf : ∀ i, i < ph.pages → ∀ va, va < 2 ^ 47 → va / frameSize = ph.vaddr / frameSize + i →
    translation s.mem pagemap va = frameSize * (b + i) ||| 7
  bytes : ∀ j, j < ph.memsz → s.mem (frameSize * b + ph.unaligned + j) = ph.byte f j

/-- What loading does to the rest: tables grow, frames in use keep their bytes,
and so do the pages outside of `covered` their entries. -/
structure Loads (F : FrameSource σ) (s : Vmm σ) (lev : Nat → Nat) (s' : Vmm σ) (lev' : Nat → Nat)
    (pagemap : Nat) (covered : Nat → Prop) : Prop where
  keeps : Keeps F s lev s' lev'
  quiet : Quiet F s lev s' lev'
  others : ∀ va, va < 2 ^ 47 → ¬ covered va → translation s'.mem pagemap va = translation s.mem pagemap va

theorem Loads.refl (ht : Tables F s lev) (covered : Nat → Prop) : Loads F s lev s lev pagemap covered :=
  ⟨(Grows.refl ht).toKeeps, .refl, fun _ _ _ => rfl⟩

theorem Loads.trans {covered covered' : Nat → Prop} (h : Loads F s lev s₁ lev₁ pagemap covered)
    (h' : Loads F s₁ lev₁ s' lev' pagemap covered') :
    Loads F s lev s' lev' pagemap fun va => covered va ∨ covered' va := by
  refine ⟨h.keeps.trans h'.keeps, h.quiet.trans h.keeps h'.quiet, fun va hva hno => ?_⟩
  rw [h'.others va hva fun hc => hno (.inr hc), h.others va hva fun hc => hno (.inl hc)]

theorem Loads.mono {covered covered' : Nat → Prop} (h : Loads F s lev s' lev' pagemap covered)
    (hle : ∀ va, covered va → covered' va) : Loads F s lev s' lev' pagemap covered' :=
  ⟨h.keeps, h.quiet, fun va hva hno => h.others va hva fun hc => hno (hle va hc)⟩

theorem Placed.page_of_byte (hfit : ph.Fits f) {b j : Nat} (hj : j < ph.memsz) :
    b ≤ (frameSize * b + ph.unaligned + j) / frameSize ∧
      (frameSize * b + ph.unaligned + j) / frameSize < b + ph.pages := by
  have hin := hfit.inside
  rw [frameSize] at hin ⊢
  omega

/-- A segment in place stays there while others are loaded. -/
theorem Placed.loads {b : Nat} {covered : Nat → Prop} (h : Placed F s lev pagemap f ph b) (hfit : ph.Fits f)
    (hl : Loads F s lev s' lev' pagemap covered) (hapart : ∀ va, ph.Covers va → ¬ covered va) :
    Placed F s' lev' pagemap f ph b := by
  refine ⟨h.below, ?_, ?_, ?_⟩
  · intro k hlo hhi
    obtain ⟨htaken, hlev⟩ := h.frames k hlo hhi
    exact ⟨hl.keeps.taken k htaken, hl.keeps.no_table htaken hlev⟩
  · intro i hi va hva heq
    rw [hl.others va hva (hapart va (hfit.covers_iff.mpr ⟨i, hi, heq⟩))]
    exact h.leaf i hi va hva heq
  · intro j hj
    obtain ⟨hlo, hhi⟩ := Placed.page_of_byte hfit (b := b) hj
    obtain ⟨htaken, hlev⟩ := h.frames _ hlo hhi
    rw [hl.quiet.bytes _ htaken hlev]
    exact h.bytes j hj

/-- A copy into frames that are no tables. -/
theorem store_entry {b n a : Nat} {bs : List Byte} (ht : Tables F s lev)
    (hlev : ∀ k, b ≤ k → k < b + n → lev (frameSize * k) = 0) (hlo : frameSize * b ≤ a)
    (hhi : a + bs.length ≤ frameSize * b + n * frameSize) (x : Nat) (i : Slot) (hx : lev x ≠ 0) :
    entry (storeBytes s.mem a bs) x i = entry s.mem x i := by
  obtain ⟨c, rfl, -, -⟩ := ht.frame x hx
  have hout : c < b ∨ b + n ≤ c := by
    by_contra hin
    exact hx (hlev c (by omega) (by omega))
  have hi := i.isLt
  refine read64_congr fun y hy hy' => storeBytes_outside ?_
  rw [frameSize] at *
  omega

/-- The frames of a segment after they have been mapped: nobody's before, no
tables, and blank. -/
structure Blank (F : FrameSource σ) (s s₁ : Vmm σ) (lev₁ : Nat → Nat) (b n : Nat) : Prop where
  below : b + n ≤ 2 ^ 40
  fresh : ∀ k, b ≤ k → k < b + n → ¬ F.Taken s.src k
  taken : ∀ k, b ≤ k → k < b + n → F.Taken s₁.src k
  level : ∀ k, b ≤ k → k < b + n → lev₁ (frameSize * k) = 0
  zero : ∀ x, b ≤ x / frameSize → x / frameSize < b + n → s₁.mem x = 0

/-- New frames, mapped with `vmm_map_pages` with at most one more behind them. -/
theorem blank_mapped {n k virtual : Nat} (ht : Tables F s lev) (htop : lev pagemap = 4) (hn : 0 < n)
    (hne : (pmmCalloc F s n).1 ≠ 0) (hk : k ≤ n + 1) (hlow : virtual / frameSize + k ≤ 2 ^ 35)
    (hmap : vmmMapPages F (pmmCalloc F s n).2 pagemap (pmmCalloc F s n).1 virtual 7 k = some s₁) :
    ∃ lev₁ b, (pmmCalloc F s n).1 = frameSize * b ∧ Blank F s s₁ lev₁ b n ∧
      Loads F s lev s₁ lev₁ pagemap (fun va => ∃ i, i < k ∧ va / frameSize = virtual / frameSize + i) ∧
      ∀ i, i < k → ∀ va, va < 2 ^ 47 → va / frameSize = virtual / frameSize + i →
        translation s₁.mem pagemap va = frameSize * (b + i) ||| 7 := by
  have hg₀ := ht.calloc hne
  have hq₀ := ht.calloc_quiet hn hne
  obtain ⟨b, heq, hb, hnew⟩ := pmmCalloc_some hn hne
  have hptr : (pmmCalloc F s n).1 = frameSize * b := by rw [heq]
  rw [hptr] at hmap
  obtain ⟨lev₁, hkeeps, hq, hleaf, hothers⟩ := vmmMapPages_spec hg₀.tables htop (by omega) hlow hmap
  have hlev : ∀ k, b ≤ k → k < b + n → lev (frameSize * k) = 0 :=
    fun k hlo hhi => ht.level_fresh (hnew k hlo hhi).1
  refine ⟨lev₁, b, hptr, ⟨hb, ?_, ?_, ?_, ?_⟩, ⟨hg₀.toKeeps.trans hkeeps, hq₀.trans hg₀.toKeeps hq, ?_⟩, hleaf⟩
  · exact fun k hlo hhi => (hnew k hlo hhi).1
  · exact fun k hlo hhi => hkeeps.taken k (hnew k hlo hhi).2
  · exact fun k hlo hhi => hkeeps.no_table (hnew k hlo hhi).2 (hlev k hlo hhi)
  · intro x hlo hhi
    rw [hq.bytes x (hnew _ hlo hhi).2 (hlev _ hlo hhi), heq]
    refine (memset_apply ..).trans (if_pos ?_)
    rw [frameSize] at hlo hhi ⊢
    omega
  · intro va hva hno
    rw [hothers va hva fun i hi h => hno ⟨i, hi, h⟩]
    exact hg₀.same pagemap (path va) htop

/-- A segment among the headers from `i` on covers the address. -/
def CoveredFrom (f : File) (i va : Nat) : Prop :=
  ∃ j, i ≤ j ∧ j < phnumOf f ∧ (phdrAt f j).type = ptLoad ∧ (phdrAt f j).Covers va

/-- The effect of the headers from `i` on. -/
structure LoadsFrom (F : FrameSource σ) (f : File) (pagemap i : Nat) (s : Vmm σ) (lev : Nat → Nat)
    (s' : Vmm σ) (lev' : Nat → Nat) : Prop where
  loads : Loads F s lev s' lev' pagemap (CoveredFrom f i)
  placed : ∀ j, i ≤ j → j < phnumOf f → (phdrAt f j).type = ptLoad →
    ∃ b, Placed F s' lev' pagemap f (phdrAt f j) b

/-- A header that loads nothing. -/
theorem LoadsFrom.skip {i : Nat} (h : LoadsFrom F f pagemap (i+1) s lev s' lev')
    (hno : (phdrAt f i).type ≠ ptLoad) : LoadsFrom F f pagemap i s lev s' lev' := by
  constructor
  · refine h.loads.mono ?_
    rintro va ⟨j, hj, hrest⟩
    exact ⟨j, by omega, hrest⟩
  · intro j hj hlt htype
    have hne : j ≠ i := fun heq => hno (heq ▸ htype)
    exact h.placed j (by omega) hlt htype

/-- A segment before the rest. -/
theorem LoadsFrom.cons {i b : Nat} (hf : Loadable f) (hi : i < phnumOf f) (htype : (phdrAt f i).type = ptLoad)
    (hplaced : Placed F s₁ lev₁ pagemap f (phdrAt f i) b)
    (hloads : Loads F s lev s₁ lev₁ pagemap (phdrAt f i).Covers)
    (h : LoadsFrom F f pagemap (i+1) s₁ lev₁ s' lev') : LoadsFrom F f pagemap i s lev s' lev' := by
  constructor
  · refine (hloads.trans h.loads).mono ?_
    rintro va (hc | ⟨j, hj, hrest⟩)
    · exact ⟨i, le_refl i, hi, htype, hc⟩
    · exact ⟨j, by omega, hrest⟩
  · intro j hj hlt htype'
    by_cases hji : j = i
    · subst hji
      refine ⟨b, hplaced.loads (hf.fits j hi htype) h.loads ?_⟩
      rintro va hc ⟨k, hk, hlt', htype'', hc'⟩
      exact hf.apart j k hi hlt' (by omega) htype htype'' va hc hc'
    · exact h.placed j (by omega) hlt htype'

theorem userAccess_of_leaf (ht : Tables F s lev) (htop : lev pagemap = 4) (hu : Flagged pteUser s.mem lev)
    {va v : Nat} (h : translation s.mem pagemap va = v ||| 7) : UserAccess s.mem pagemap va :=
  ht.flagWalk_of_leaf htop hu h (by decide) (by decide)

theorem HeadersInside.header_read (hf : HeadersInside f) : ¬ readResult (f.readCount ehdrSize 0) ≤ 0 := by
  rw [readCount_inside hf.size (by rw [Nat.zero_add]; exact hf.header)]
  decide

theorem HeadersInside.header_valid (hf : HeadersInside f) : ¬ checkHeaders (ehdrOf f) = false := by
  rw [hf.valid]
  decide

/-- Every pagemap of a run of the table operations is one to load into. -/
theorem openTables_of_reaches {w : VmmRun σ} (hw : VmmReaches F w) (htop : pagemap ∈ w.tops) :
    OpenTables F w.vmm pagemap := by
  obtain ⟨lev, hinv, hflags⟩ := hw.flagged
  exact ⟨lev, hinv.tables, hinv.tops pagemap htop, hflags pteUser (by decide)⟩

end Load

/-! ### A file with an interpreter and a segment -/

/-- Eight bytes at 0x400010, the first four from the file, and an interpreter's
path of the given length. -/
def smallElf (interp : Nat) : File where
  size := frameSize
  data := List.foldl (fun m (a, n, v) => writeLE m a n v) (fun _ => 0)
    [(0, 4, elfMag), (4, 1, elfClass64), (5, 1, elfData2Lsb), (18, 2, emX8664), (20, 4, evCurrent),
      (24, 8, 0x400010), (32, 8, 64), (54, 2, phdrSize), (56, 2, 2),
      (64, 4, ptInterp), (72, 8, 176), (96, 8, interp),
      (120, 4, ptLoad), (128, 8, 180), (136, 8, 0x400010), (152, 8, 4), (160, 8, 8),
      (176, 3, 0x646c2f), (180, 4, 0x04030201)]

def interpPhdr (interp : Nat) : Phdr := ⟨ptInterp, 176, 0, interp, 0⟩

def loadPhdr : Phdr := ⟨ptLoad, 180, 0x400010, 4, 8⟩

section Small
variable {interp : Nat} (hinterp : interp = 0 ∨ interp = 3 ∨ interp = 2 ^ 64 - 1)
include hinterp

theorem smallElf_phnum : phnumOf (smallElf interp) = 2 := by
  rcases hinterp with rfl | rfl | rfl <;> decide +kernel

theorem smallElf_first : phdrAt (smallElf interp) 0 = interpPhdr interp := by
  rcases hinterp with rfl | rfl | rfl <;> rfl

theorem smallElf_second : phdrAt (smallElf interp) 1 = loadPhdr := by
  rcases hinterp with rfl | rfl | rfl <;> rfl

theorem smallElf_valid : checkHeaders (ehdrOf (smallElf interp)) = true := by
  rcases hinterp with rfl | rfl | rfl <;> decide +kernel

theorem smallElf_table : (ehdrOf (smallElf interp)).phoff = 64 ∧ (ehdrOf (smallElf interp)).phentsize = 56 := by
  rcases hinterp with rfl | rfl | rfl <;> decide +kernel

theorem smallElf_load {i : Nat} (hi : i < phnumOf (smallElf interp))
    (htype : (phdrAt (smallElf interp) i).type = ptLoad) : i = 1 := by
  rw [smallElf_phnum hinterp] at hi
  have hne : i ≠ 0 := by
    rintro rfl
    rw [smallElf_first hinterp] at htype
    cases htype
  omega

theorem smallElf_loadable : Loadable (smallElf interp) := by
  have hnum := smallElf_phnum hinterp
  refine ⟨⟨?_, ?_, smallElf_valid hinterp, ?_⟩, ?_, ?_⟩
  · show frameSize < 2 ^ 64
    decide
  · show ehdrSize ≤ frameSize
    decide
  · intro i hi
    rw [hnum] at hi
    rw [(smallElf_table hinterp).1, (smallElf_table hinterp).2]
    show 64 + i * 56 + phdrSize ≤ frameSize
    rw [phdrSize, frameSize]
    omega
  · intro i hi htype
    cases smallElf_load hinterp hi htype
    rw [smallElf_second hinterp]
    refine ⟨by decide, by decide, ?_, by decide, by decide⟩
    show loadPhdr.offset + loadPhdr.filesz ≤ frameSize
    decide
  · intro i j hi hj hne hti htj
    exact absurd ((smallElf_load hinterp hi hti).trans (smallElf_load hinterp hj htj).symm) hne

end Small

/-- A new pagemap on a machine with free frames. -/
theorem fresh_tables : ∃ s pagemap, OpenTables pmmSource s pagemap ∧ pmmSource.Ready s.src 4 := by
  obtain ⟨r, hr, -, hready⟩ := newTop_returns (n := 4)
    (pmmSource_ready (p := openVmm.src) (show (List.range' 1 6).Nodup by decide) (by decide) (by decide))
  exact ⟨r.2, r.1, openTables_of_reaches (.init hr) List.mem_cons_self, hready⟩

theorem smallElf_path : (smallElf 3).readCount (interpPhdr 3).filesz (interpPhdr 3).offset = 3 :=
  readCount_inside (smallElf_loadable (.inr (.inl rfl))).size (by decide)

end Flan.Proc
