import Flan.Fs.Tmpfs
import Flan.Proc.Process

/-! `elf_load` of `lib/elf.c` on files of `fs/tmpfs.c`. -/
namespace Flan.Proc
open Flan.Lib Flan.Memory Flan.Fs

/-! ### Headers -/

/-- The fields of `Elf64_Ehdr` that are used. -/
structure Ehdr where
  magic : Nat
  eiClass : Nat
  eiData : Nat
  machine : Nat
  version : Nat
  entry : Nat
  phoff : Nat
  phentsize : Nat
  phnum : Nat

def ehdrSize : Nat := 64

def Ehdr.ofMem (m : Mem) : Ehdr :=
  { magic := readLE m 0 4, eiClass := readLE m 4 1, eiData := readLE m 5 1, machine := readLE m 18 2,
    version := readLE m 20 4, entry := readLE m 24 8, phoff := readLE m 32 8,
    phentsize := readLE m 54 2, phnum := readLE m 56 2 }

/-- The fields of `Elf64_Phdr` that are used. -/
structure Phdr where
  type : Nat
  offset : Nat
  vaddr : Nat
  filesz : Nat
  memsz : Nat

def phdrSize : Nat := 56

def Phdr.ofMem (m : Mem) : Phdr :=
  { type := readLE m 0 4, offset := readLE m 8 8, vaddr := readLE m 16 8, filesz := readLE m 32 8,
    memsz := readLE m 40 8 }

/-- The bytes 7f 45 4c 46. -/
def elfMag : Nat := 0x464c457f
def elfClass64 : Nat := 2
def elfData2Lsb : Nat := 1
def emX8664 : Nat := 62
def evCurrent : Nat := 1
def ptLoad : Nat := 1
def ptInterp : Nat := 3
def ptPhdr : Nat := 6

def checkHeaders (h : Ehdr) : Bool :=
  if h.magic ≠ elfMag then false
  else if h.eiClass ≠ elfClass64 then false
  else if h.eiData ≠ elfData2Lsb then false
  else if h.machine ≠ emX8664 then false
  else if h.version ≠ evCurrent then false
  else true

/-! ### Segments -/

/-- What the loop has written through its pointers, and the frames it has
allocated for segments: address and number. -/
structure ElfOut where
  aux : Auxval
  ldPath : Option (List Byte)
  loaded : List (Nat × Nat)

/-- The offset of the segment in its first page. -/
def Phdr.unaligned (ph : Phdr) : Nat := ph.vaddr &&& (frameSize - 1)

def Phdr.pages (ph : Phdr) : Nat :=
  alignUpFrame ((ph.memsz + ph.unaligned) % 2 ^ 64) / frameSize

section Load
variable {σ : Type} (F : FrameSource σ) (pagemap : Nat) (f : File)

/-- The case `PT_LOAD`: the frames when there are any, and the machine. The
file is copied before the `assert` looks at the count. -/
def loadSegment (s : Vmm σ) (ph : Phdr) : Option (Option (Nat × Nat) × Vmm σ) :=
  let r := pmmCalloc F s ph.pages
  if r.1 = 0 then some (none, r.2)
  else do
    let s ← vmmMapPages F r.2 pagemap r.1 ph.vaddr (ptePresent ||| pteWritable ||| pteUser) ph.pages
    let s := { s with mem := storeBytes s.mem (r.1 + ph.unaligned) (f.read ph.filesz ph.offset) }
    if readResult (f.readCount ph.filesz ph.offset) = 0 then none
    else return (some (r.1, ph.pages), s)

/-- The case `PT_INTERP`: the path, which goes to the kernel heap. Nothing compares
the count with the size of the block, and the heap is apart from the frames here. -/
def readInterp (ph : Phdr) : Option (List Byte) :=
  if readResult (f.readCount ph.filesz ph.offset) = 0 then none
  else some (f.read ph.filesz ph.offset)

/-- The loop over the program headers. `stack i` is what the `i`th header's
place on the stack holds before it is read; `wantsPath` tells whether `ld_path`
is given. -/
def loadHeaders (stack : Nat → Mem) (wantsPath : Bool) (h : Ehdr) :
    (left : Nat) → (i : Nat) → Vmm σ → ElfOut → Option (Bool × ElfOut × Vmm σ)
  | 0, _, s, out => some (true, out, s)
  | left+1, i, s, out =>
      let offset := (h.phoff + i * h.phentsize) % 2 ^ 64
      if readResult (f.readCount phdrSize offset) ≤ 0 then some (false, out, s)
      else
        let ph := Phdr.ofMem (f.readStruct (stack i) phdrSize offset)
        if ph.type = ptLoad then do
          let (frames, s) ← loadSegment F pagemap f s ph
          match frames with
          | none => return (false, out, s)
          | some r => loadHeaders stack wantsPath h left (i+1) s { out with loaded := r :: out.loaded }
        else if ph.type = ptInterp then do
          let path ← readInterp f ph
          let out := if wantsPath then { out with ldPath := some path } else out
          loadHeaders stack wantsPath h left (i+1) s out
        else if ph.type = ptPhdr then
          loadHeaders stack wantsPath h left (i+1) s
            { out with aux := { out.aux with atPhdr := ph.vaddr } }
        else loadHeaders stack wantsPath h left (i+1) s out

/-- `elf_load`. `aux` is what `*aux` holds before, `header` what the place of
the ELF header does. -/
def elfLoad (header : Mem) (stack : Nat → Mem) (wantsPath : Bool) (s : Vmm σ) (aux : Auxval) :
    Option (Bool × ElfOut × Vmm σ) := do
  let out : ElfOut := ⟨aux, none, []⟩
  if readResult (f.readCount ehdrSize 0) ≤ 0 then return (false, out, s)
  else
    let h := Ehdr.ofMem (f.readStruct header ehdrSize 0)
    if checkHeaders h = false then return (false, out, s)
    else
      let (ok, out, s) ← loadHeaders F pagemap f stack wantsPath h h.phnum 0 s out
      if ok then
        let aux := { out.aux with atEntry := h.entry, atPhent := h.phentsize, atPhnum := h.phnum }
        return (true, { out with aux }, s)
      else return (false, out, s)

end Load

/-- How a segment that is loaded, or has no frames, comes out. -/
theorem loadSegment_some {σ : Type} {F : FrameSource σ} {pagemap : Nat} {f : File} {s s' : Vmm σ} {ph : Phdr}
    {frames : Option (Nat × Nat)} (h : loadSegment F pagemap f s ph = some (frames, s')) :
    ((pmmCalloc F s ph.pages).1 = 0 ∧ frames = none ∧ s' = (pmmCalloc F s ph.pages).2) ∨
    ((pmmCalloc F s ph.pages).1 ≠ 0 ∧ frames = some ((pmmCalloc F s ph.pages).1, ph.pages) ∧
      ∃ s₁, vmmMapPages F (pmmCalloc F s ph.pages).2 pagemap (pmmCalloc F s ph.pages).1 ph.vaddr
        (ptePresent ||| pteWritable ||| pteUser) ph.pages = some s₁ ∧
      s' = ⟨storeBytes s₁.mem ((pmmCalloc F s ph.pages).1 + ph.unaligned) (f.read ph.filesz ph.offset), s₁.src⟩ ∧
      f.readCount ph.filesz ph.offset ≠ 0) := by
  rw [loadSegment] at h
  split at h
  case isTrue hnull =>
      cases h
      exact .inl ⟨hnull, rfl, rfl⟩
  case isFalse hne =>
      obtain ⟨s₁, hmap, h⟩ := Option.bind_eq_some_iff.mp h
      simp only at h
      split at h
      case isTrue => cases h
      case isFalse hcount =>
          cases h
          refine .inr ⟨hne, rfl, s₁, hmap, rfl, fun hz => hcount ?_⟩
          rw [hz]
          rfl

end Flan.Proc
