import Mathlib.Data.Nat.Digits.Defs
import Mathlib.Tactic.IntervalCases
import Mathlib.Tactic.Ring
import Flan.Fs.PathMap

/-! Unpacking the initial archive, from `fs/initramfs.c`. Addresses are physical.
The frames of an entry are given back once it is unpacked, so whoever gets them
next may write to them while the loop goes on. -/
namespace Flan.Fs
open Flan.Lib Flan.Memory

/-! ### Reading the archive -/

def strAt (m : Mem) (p : Nat) : List Byte := cString m (2 ^ 64) p

/-- The loop of `oct2int`. -/
def oct2intFrom (m : Mem) : (len : Nat) → (str value : Nat) → Nat
  | 0, _, value => value
  | len+1, str, value =>
      if m str = 0 then value
      else oct2intFrom m len (str + 1) ((value * 8 + ((m str).toInt - 48) : Int) % 2 ^ 64).toNat

def oct2int (m : Mem) (str len : Nat) : Nat := oct2intFrom m len str 0

/-- The offsets of the fields of `struct tar_header` that are used. -/
def tarSize : Nat := 124
def tarTypeflag : Nat := 156
def tarMagic : Nat := 257

def typeNormal : Byte := 48
def typeDirectory : Byte := 53

def ustar : List Byte := ofChars ['u', 's', 't', 'a', 'r']

/-- `ALIGN_UP(size, 512)`. -/
def alignUp512 (size : Nat) : Nat := (size + 511) % 2 ^ 64 / 512 * 512

/-! ### The loop -/

/-- Memory, the header under way, the tree, the frames given back and the headers
visited so far. -/
structure Unpack where
  mem : Mem
  currentFile : Nat
  v : Vfs
  freed : List Nat
  visited : List Nat

/-- What the environment does during one turn: what has been written to freed
frames before it and while it creates, and what the heap hands out. -/
structure Noise where
  before : Mem
  during : Mem
  fresh : Mem

namespace Unpack

/-- The owners of freed frames have written to them. -/
def reuse (s : Unpack) (noise : Mem) : Unpack :=
  { s with mem := fun x => if x / frameSize ∈ s.freed then noise x else s.mem x }

/-- `basename` cuts the slashes at the end of the name off in place. -/
def cutName (m : Mem) (p : Nat) (name : List Byte) : Mem := fun x =>
  if p + stripEnd name (name.length - 1) < x ∧ x < p + name.length then 0 else m x

/-- `vfs_create(root, name, mode)` with its assertion. -/
def create (s : Unpack) (mode : Nat) : Option (Nat × Unpack) := do
  let name := strAt s.mem s.currentFile
  let (node, v) ← vfsCreate s.v s.v.root name mode
  return (← node, { s with v, mem := cutName s.mem s.currentFile name })

/-- `node->fs->write` of the file's bytes with its assertion. -/
def write (s : Unpack) (n : Nat) (fresh : Mem) (size : Nat) : Option Unpack := do
  let buff := bytesAt s.mem (s.currentFile + 512) size
  let (ret, node) ← match (s.v.node n).fs with
    | none => none
    | some .ext2fs => some (0, s.v.node n)
    | some .tmpfs => tmpfsWrite (s.v.node n) fresh buff 0
  if ret = readResult size then some { s with v := s.v.modify n fun _ => node } else none

/-- The body of the `switch`. -/
def unpackType (s : Unpack) (env : Noise) (size : Nat) : Option Unpack :=
  let typeflag := s.mem (s.currentFile + tarTypeflag)
  if typeflag = typeNormal then do
    let (n, s) ← s.create sIfreg
    (s.reuse env.during).write n env.fresh size
  else if typeflag = typeDirectory then (s.create sIfdir).map Prod.snd
  else some s

/-- One turn of the loop. -/
def turn (s : Unpack) (env : Noise) : Option Unpack := do
  let size := oct2int s.mem (s.currentFile + tarSize) 12
  let span := (512 + alignUp512 size) % 2 ^ 64
  let s' ← s.unpackType env size
  return { s' with
    freed := s'.freed ++ List.range' (s.currentFile / frameSize) (span / frameSize)
    currentFile := s.currentFile + span
    visited := s'.visited ++ [s.currentFile] }

def loop (env : Nat → Noise) : (fuel turns : Nat) → Unpack → Option Unpack
  | 0, _, _ => none
  | fuel+1, k, s =>
      let s := s.reuse (env k).before
      if bytesAt s.mem (s.currentFile + tarMagic) 5 = ustar then
        (s.turn (env k)).bind (loop env fuel (k + 1))
      else some s

/-- Where the string that `basename` returns for a name at `p` lies, with its terminator. -/
def keySpan (p : Nat) (name : List Byte) : Span :=
  let last := stripEnd name (name.length - 1)
  ⟨p + baseStart name last, last + 1 - baseStart name last + 1⟩

/-- The key whose pointer a turn puts into a hashmap. For an empty name `basename` has a
string of its own. -/
def keys (s : Unpack) : List Span :=
  let typeflag := s.mem (s.currentFile + tarTypeflag)
  let name := strAt s.mem s.currentFile
  if (typeflag = typeNormal ∨ typeflag = typeDirectory) ∧ name ≠ [] then [keySpan s.currentFile name] else []

/-- The loop with a record of the keys. -/
def loopKeys (env : Nat → Noise) : (fuel turns : Nat) → Unpack → List Span → Option (Unpack × List Span)
  | 0, _, _, _ => none
  | fuel+1, k, s, stored =>
      let s := s.reuse (env k).before
      if bytesAt s.mem (s.currentFile + tarMagic) 5 = ustar then
        (s.turn (env k)).bind fun s' => loopKeys env fuel (k + 1) s' (stored ++ s.keys)
      else some (s, stored)

theorem loopKeys_state (env : Nat → Noise) (fuel k : Nat) (s : Unpack) (stored : List Span) :
    (loopKeys env fuel k s stored).map Prod.fst = loop env fuel k s := by
  induction fuel generalizing k s stored with
  | zero => rfl
  | succ fuel ih =>
      simp only [loopKeys, loop]
      split
      · rw [Option.map_bind]
        congr 1
        funext s'
        exact ih (k + 1) s' _
      · rfl

end Unpack

/-- `initramfs_init` on a module at `address`, for at most `fuel` headers. -/
def initramfsInit (env : Nat → Noise) (fuel : Nat) (m : Mem) (address : Nat) (v : Vfs) : Option Unpack :=
  Unpack.loop env fuel 0 ⟨m, address, v, [], []⟩

/-- The same with the keys that are put into hashmaps. -/
def initramfsKeys (env : Nat → Noise) (fuel : Nat) (m : Mem) (address : Nat) (v : Vfs) : Option (Unpack × List Span) :=
  Unpack.loopKeys env fuel 0 ⟨m, address, v, [], []⟩ []

/-! ### Archives -/

/-- A header and the data behind it, in blocks. -/
def fileSpan (size : Nat) : Nat := 512 + (size + 511) / 512 * 512

structure TarEntry where
  name : List Byte
  typeflag : Byte
  data : List Byte

namespace TarEntry

def span (e : TarEntry) : Nat := fileSpan e.data.length

def makes (e : TarEntry) : Prop := e.typeflag = typeNormal ∨ e.typeflag = typeDirectory

instance (e : TarEntry) : Decidable e.makes := inferInstanceAs (Decidable (_ ∨ _))

def comps (e : TarEntry) : List (List Byte) := (segments e.name).getD []

end TarEntry

/-- An octal number in a field, with a terminator unless it fills the field. -/
structure OctalAt (m : Mem) (p len value : Nat) (digits : List Nat) : Prop where
  octal : ∀ d ∈ digits, d < 8
  fits : digits.length ≤ len
  bytes : bytesAt m p digits.length = digits.map fun d => BitVec.ofNat 8 (48 + d)
  ends : digits.length < len → m (p + digits.length) = 0
  value : value = Nat.ofDigits 8 digits.reverse

structure HeaderAt (m : Mem) (p : Nat) (e : TarEntry) : Prop where
  name : bytesAt m p e.name.length = e.name
  nameEnds : m (p + e.name.length) = 0
  nameStr : 0 ∉ e.name
  nameShort : e.name.length < 100
  size : ∃ digits, OctalAt m (p + tarSize) 12 e.data.length digits
  typeflag : m (p + tarTypeflag) = e.typeflag
  magic : bytesAt m (p + tarMagic) 5 = ustar
  data : bytesAt m (p + 512) e.data.length = e.data

/-- Memory holds an archive: headers with their data, then a block without the
magic. -/
inductive ArchiveAt (m : Mem) : Nat → List TarEntry → Prop
  | stop {p} (h : bytesAt m (p + tarMagic) 5 ≠ ustar) : ArchiveAt m p []
  | entry {p e es} (h : HeaderAt m p e) (hrest : ArchiveAt m (p + e.span) es) : ArchiveAt m p (e :: es)

def addresses : Nat → List TarEntry → List Nat
  | _, [] => []
  | p, e :: es => p :: addresses (p + e.span) es

/-- The entries with the addresses of their headers. -/
def located : Nat → List TarEntry → List (Nat × TarEntry)
  | _, [] => []
  | p, e :: es => (p, e) :: located (p + e.span) es

/-- The frames that are given back with an entry. -/
def framesOf (d : Nat × TarEntry) : List Nat := List.range' (d.1 / frameSize) (d.2.span / frameSize)

def archiveFrames (p : Nat) (es : List TarEntry) : List Nat := (located p es).flatMap framesOf

def archiveKeys (p : Nat) (es : List TarEntry) : List Span :=
  ((located p es).filter fun d => d.2.makes).map fun d => Unpack.keySpan d.1 d.2.name

/-- Names are spelled out, each file and directory appears once, and behind the
directory it is in. -/
structure WellFormed (es : List TarEntry) : Prop where
  spelled : ∀ e ∈ es, e.makes → Spells e.name e.comps
  unique : es.Pairwise fun a b => a.makes → b.makes → a.comps ≠ b.comps
  parents : ∀ pre e post, es = pre ++ e :: post → e.makes →
    e.comps.dropLast = [] ∨ ∃ d ∈ pre, d.typeflag = typeDirectory ∧ d.comps = e.comps.dropLast

section Read
variable {m m' : Mem} {p n : Nat} {e : TarEntry} {es : List TarEntry}

theorem HeaderAt.strAt (h : HeaderAt m p e) : strAt m p = e.name :=
  cString_eq h.name h.nameEnds h.nameStr (h.nameShort.trans (by decide))

theorem digit_toInt {d : Nat} (hd : d < 8) :
    BitVec.ofNat 8 (48 + d) ≠ 0 ∧ (BitVec.ofNat 8 (48 + d)).toInt - 48 = d := by
  interval_cases d <;> decide

/-- `oct2int` on a field of octal digits, from the value of those read before. -/
theorem oct2intFrom_eq {digits : List Nat} {len value : Nat} (hd : ∀ d ∈ digits, d < 8)
    (hlen : digits.length ≤ len)
    (hb : bytesAt m p digits.length = digits.map fun d => BitVec.ofNat 8 (48 + d))
    (hend : digits.length < len → m (p + digits.length) = 0)
    (hbound : (value + 1) * 8 ^ digits.length ≤ 2 ^ 64) :
    oct2intFrom m len p value = value * 8 ^ digits.length + Nat.ofDigits 8 digits.reverse := by
  induction digits generalizing p len value with
  | nil =>
      have hdone : oct2intFrom m len p value = value := by
        cases len with
        | zero => rfl
        | succ len => exact if_pos (hend (Nat.succ_pos _))
      rw [hdone]
      simp
  | cons d digits ih =>
      obtain ⟨len, rfl⟩ := Nat.exists_eq_succ_of_ne_zero (Nat.ne_zero_of_lt hlen)
      rw [List.length_cons, bytesAt_succ] at hb
      obtain ⟨hc, hrest⟩ := List.cons.inj hb
      have hd8 := hd d List.mem_cons_self
      obtain ⟨hnz, hint⟩ := digit_toInt hd8
      have hpow : 0 < 8 ^ digits.length := Nat.pow_pos (by decide)
      have hstep : (value * 8 + d + 1) * 8 ^ digits.length ≤ 2 ^ 64 := by
        refine le_trans ?_ hbound
        rw [List.length_cons, Nat.pow_succ', ← Nat.mul_assoc]
        exact Nat.mul_le_mul_right _ (by omega)
      have hsmall : value * 8 + d < 2 ^ 64 :=
        Nat.lt_of_succ_le (le_trans (Nat.le_mul_of_pos_right _ hpow) hstep)
      have hval : (((value : Int) * 8 + d) % 2 ^ 64).toNat = value * 8 + d := by omega
      have hend' : digits.length < len → m (p + 1 + digits.length) = 0 := by
        intro h
        rw [Nat.add_right_comm, Nat.add_assoc]
        exact hend (Nat.succ_lt_succ h)
      rw [oct2intFrom, hc, if_neg hnz, hint, hval,
        ih (fun x hx => hd x (List.mem_cons_of_mem _ hx)) (Nat.le_of_succ_le_succ hlen) hrest hend' hstep,
        List.reverse_cons, Nat.ofDigits_append, Nat.ofDigits_singleton, List.length_reverse, List.length_cons]
      ring

theorem OctalAt.value_lt {len value : Nat} {digits : List Nat} (h : OctalAt m p len value digits) :
    value < 8 ^ len := by
  rw [h.value]
  refine lt_of_lt_of_le (Nat.ofDigits_lt_base_pow_length (by decide) fun d hd => ?_)
    (Nat.pow_le_pow_right (by decide) (List.length_reverse.trans_le h.fits))
  exact h.octal d (List.mem_reverse.mp hd)

theorem HeaderAt.size_lt (h : HeaderAt m p e) : e.data.length < 2 ^ 36 := by
  obtain ⟨digits, ho⟩ := h.size
  exact ho.value_lt

theorem OctalAt.oct2int {value : Nat} {digits : List Nat} (h : OctalAt m p 12 value digits) :
    oct2int m p 12 = value := by
  have hpow : 8 ^ digits.length ≤ 8 ^ 12 := Nat.pow_le_pow_right (by decide) h.fits
  rw [Fs.oct2int, oct2intFrom_eq h.octal h.fits h.bytes h.ends (by omega), Nat.zero_mul, Nat.zero_add, h.value]

theorem HeaderAt.oct2int (h : HeaderAt m p e) : oct2int m (p + tarSize) 12 = e.data.length := by
  obtain ⟨digits, ho⟩ := h.size
  exact ho.oct2int

theorem alignUp512_eq {size : Nat} (h : size < 2 ^ 36) : alignUp512 size = (size + 511) / 512 * 512 := by
  rw [alignUp512, Nat.mod_eq_of_lt (by omega)]

/-- Later memory alone decides what an archive is. -/
theorem HeaderAt.congr (h : HeaderAt m p e) (hm : ∀ x, p ≤ x → m' x = m x) : HeaderAt m' p e := by
  have hat : ∀ k n, bytesAt m' (p + k) n = bytesAt m (p + k) n :=
    fun k n => bytesAt_congr fun x hx _ => hm x (le_trans (Nat.le_add_right _ _) hx)
  have hone : ∀ k, m' (p + k) = m (p + k) := fun k => hm _ (Nat.le_add_right _ _)
  obtain ⟨digits, ho⟩ := h.size
  refine ⟨?_, ?_, h.nameStr, h.nameShort, ⟨digits, ho.octal, ho.fits, ?_, ?_, ho.value⟩, ?_, ?_, ?_⟩
  · exact (hat 0 _).trans h.name
  · exact (hone _).trans h.nameEnds
  · exact (hat _ _).trans ho.bytes
  · intro hlt
    rw [Nat.add_assoc, hone, ← Nat.add_assoc]
    exact ho.ends hlt
  · exact (hone _).trans h.typeflag
  · exact (hat _ _).trans h.magic
  · exact (hat _ _).trans h.data

theorem ArchiveAt.congr (h : ArchiveAt m p es) (hm : ∀ x, p ≤ x → m' x = m x) : ArchiveAt m' p es := by
  induction h with
  | stop h =>
      refine .stop ?_
      rwa [bytesAt_congr fun x hx _ => hm x (le_trans (Nat.le_add_right _ _) hx)]
  | entry h _ ih => exact .entry (h.congr hm) (ih fun x hx => hm x (le_trans (Nat.le_add_right _ _) hx))

end Read

/-! ### The run -/

structure IsDirectory (node : VfsNode) : Prop where
  mode : node.st.mode = sIfdir
  children : node.children.isSome

/-- A regular file that starts with these bytes. -/
structure HoldsFile (bytes : List Byte) (node : VfsNode) : Prop where
  mode : node.st.mode = sIfreg
  children : node.children = none
  size : bytes.length ≤ node.st.size
  data : ∃ d, node.data = some d ∧ ∀ i (hi : i < bytes.length), d i = bytes[i]

/-- The tree has what the entries say and no more. -/
structure Unpacked (done : List TarEntry) (v : Vfs) (m : PathMap) : Prop where
  real : Realizes 1 v m
  dirs : ∀ e ∈ done, e.typeflag = typeDirectory →
    ∃ n, m e.comps = some ⟨n, true⟩ ∧ IsDirectory (v.node n)
  files : ∀ e ∈ done, e.typeflag = typeNormal →
    ∃ n, m e.comps = some ⟨n, false⟩ ∧ HoldsFile e.data (v.node n)
  only : ∀ {cs x}, m cs = some x → ∃ e ∈ done, e.makes ∧ e.comps = cs

/-- Nodes only gain children. -/
def KeepsNodes (v v' : Vfs) : Prop := ∀ {x}, x < v.count →
  ∃ ch, v'.node x = { v.node x with children := ch } ∧ ch.isSome = (v.node x).children.isSome

/-- Frames given back lie before the header under way. -/
def Unpack.FreedBelow (s : Unpack) : Prop := ∀ f ∈ s.freed, (f + 1) * frameSize ≤ s.currentFile

section Run
variable {s : Unpack} {e : TarEntry} {es done rest : List TarEntry} {v v' : Vfs} {m : PathMap}

theorem KeepsNodes.directory {x : Nat} (hk : KeepsNodes v v') (hx : x < v.count)
    (h : IsDirectory (v.node x)) : IsDirectory (v'.node x) := by
  obtain ⟨ch, hnode, hch⟩ := hk hx
  rw [hnode]
  exact ⟨h.mode, hch.trans h.children⟩

theorem KeepsNodes.holdsFile {x : Nat} {bytes : List Byte} (hk : KeepsNodes v v') (hx : x < v.count)
    (h : HoldsFile bytes (v.node x)) : HoldsFile bytes (v'.node x) := by
  obtain ⟨ch, hnode, hch⟩ := hk hx
  rw [hnode]
  refine ⟨h.mode, ?_, h.size, h.data⟩
  rwa [h.children, Option.isSome_none, Option.isSome_eq_false_iff, Option.isNone_iff_eq_none] at hch

/-- The next entry of a well-formed archive can be created. -/
theorem Unpacked.canCreate (h : Unpacked done v m) (hw : WellFormed (done ++ e :: rest)) (hmk : e.makes) :
    m.CanCreate e.comps := by
  constructor
  · cases hm : m e.comps with
    | none => rfl
    | some x =>
        obtain ⟨d, hd, hdmk, heq⟩ := h.only hm
        have huniq := (List.pairwise_append.mp hw.unique).2.2 d hd e List.mem_cons_self
        exact absurd heq (huniq hdmk hmk)
  · rcases hw.parents done e rest rfl hmk with hnil | ⟨d, hd, hdir, heq⟩
    · exact .inl hnil
    · obtain ⟨n, hn, _⟩ := h.dirs d hd hdir
      exact .inr ⟨_, by rw [← heq]; exact hn, rfl⟩

/-- The entries done before stay as they are when an entry is added. -/
theorem Unpacked.insert {mode : Nat} (h : Unpacked done v m) (hk : KeepsNodes v v')
    (hreal : Realizes 1 v' (m.insert e.comps v.count mode)) (hno : m e.comps = none) (hmk : e.makes)
    (hdir : e.typeflag = typeDirectory → sIsDir mode = true ∧ IsDirectory (v'.node v.count))
    (hfile : e.typeflag = typeNormal → sIsDir mode = false ∧ HoldsFile e.data (v'.node v.count)) :
    Unpacked (done ++ [e]) v' (m.insert e.comps v.count mode) := by
  have hold : ∀ {cs x}, m cs = some x → (m.insert e.comps v.count mode) cs = some x := by
    intro cs x hx
    rw [PathMap.insert, Function.update_of_ne, hx]
    rintro rfl
    rw [hno] at hx
    cases hx
  have hnew : (m.insert e.comps v.count mode) e.comps = some ⟨v.count, sIsDir mode⟩ :=
    Function.update_self _ _ _
  refine ⟨hreal, ?_, ?_, ?_⟩
  · intro d hd ht
    rcases List.mem_append.mp hd with hd | hd
    · obtain ⟨n, hn, hdn⟩ := h.dirs d hd ht
      exact ⟨n, hold hn, hk.directory (h.real.node_lt hn) hdn⟩
    · cases List.mem_singleton.mp hd
      obtain ⟨hb, hdn⟩ := hdir ht
      exact ⟨_, by rw [hnew, hb], hdn⟩
  · intro d hd ht
    rcases List.mem_append.mp hd with hd | hd
    · obtain ⟨n, hn, hdn⟩ := h.files d hd ht
      exact ⟨n, hold hn, hk.holdsFile (h.real.node_lt hn) hdn⟩
    · cases List.mem_singleton.mp hd
      obtain ⟨hb, hdn⟩ := hfile ht
      exact ⟨_, by rw [hnew, hb], hdn⟩
  · intro cs x hx
    by_cases hcs : cs = e.comps
    · exact ⟨e, List.mem_concat_self, hmk, hcs.symm⟩
    · rw [PathMap.insert, Function.update_of_ne hcs] at hx
      obtain ⟨d, hd, hdmk, heq⟩ := h.only hx
      exact ⟨d, List.mem_append_left _ hd, hdmk, heq⟩

theorem Unpack.create_eq (hh : HeaderAt s.mem s.currentFile e) (hu : Unpacked done s.v m)
    (hw : WellFormed (done ++ e :: rest)) (hmk : e.makes) (mode : Nat) :
    ∃ v' p k, s.create mode =
        some (s.v.count, { s with v := v', mem := cutName s.mem s.currentFile e.name }) ∧
      Grows s.v v' p k mode ∧ Realizes 1 v' (m.insert e.comps s.v.count mode) := by
  have hs := hw.spelled e (List.mem_append_right _ List.mem_cons_self) hmk
  have hcan := hu.canCreate hw hmk
  have hfile := hu.real.noFileBelow_of_canCreate hs.ne_nil hcan
  rcases hu.real.vfsCreate hs hfile mode with ⟨hno, _⟩ | ⟨_, v', p, k, hsome, hg, hreal⟩
  · exact absurd hcan hno
  · refine ⟨v', p, k, ?_, hg, hreal⟩
    simp only [Unpack.create, hh.strAt, hsome, Option.bind_eq_bind, Option.bind_some]
    rfl

theorem FileInv.holdsFile {bytes : List Byte} {fresh : Mem} {node : VfsNode}
    (h : FileInv [⟨bytes, 0, fresh⟩] node) (hmode : node.st.mode = sIfreg) (hch : node.children = none) :
    HoldsFile bytes node := by
  have hstop : (⟨bytes, 0, fresh⟩ : Write).stop = bytes.length := Nat.zero_add _
  have hblocks := Write.stop_lt (h.pages _ List.mem_cons_self)
  rw [hstop] at hblocks
  refine ⟨hmode, hch, ?_, ?_⟩
  · rw [h.size, lastGrowth, List.foldl_cons, List.foldl_nil]
    split
    · exact hstop.ge
    · rename_i hpage
      have hlt := Write.stop_lt (Nat.lt_succ_of_le (Nat.le_of_not_lt hpage))
      rw [hstop] at hlt
      exact hlt.le
  · obtain ⟨d, hd, hall⟩ := h.data
    refine ⟨d, hd, fun i hi => ?_⟩
    have hbyte : lastByte [⟨bytes, 0, fresh⟩] i = some bytes[i] := List.getElem?_eq_getElem hi
    rw [hall i (hi.trans hblocks), hbyte, Option.getD_some]

/-- The bytes of the entry are written to its new node. -/
theorem Unpack.write_eq {n : Nat} (hh : bytesAt s.mem (s.currentFile + 512) e.data.length = e.data)
    (hlen : e.data.length < 2 ^ 36) (hi : FileInv [] (s.v.node n)) (hfs : (s.v.node n).fs = some .tmpfs)
    (hmode : (s.v.node n).st.mode = sIfreg) (hch : (s.v.node n).children = none) (fresh : Mem) :
    ∃ node data st, s.write n fresh e.data.length = some { s with v := s.v.modify n fun _ => node } ∧
      node = { s.v.node n with data, st } ∧ HoldsFile e.data node := by
  have hstop : (⟨e.data, 0, fresh⟩ : Write).stop < 2 ^ 63 := by
    show 0 + e.data.length < 2 ^ 63
    omega
  obtain ⟨node, hwrite, hinv⟩ := hi.write hstop
  obtain ⟨data, st, hnode, hst⟩ := tmpfsWrite_fields hwrite
  refine ⟨node, data, st, ?_, hnode, hinv.holdsFile ?_ ?_⟩
  · simp only [Unpack.write, hh, hfs, hwrite, Option.bind_eq_bind, Option.bind_some, if_true]
  · rw [hnode]
    exact hst.trans hmode
  · rw [hnode]
    exact hch

theorem Unpack.cutName_above {mem : Mem} {p x : Nat} {name : List Byte} (h : p + name.length ≤ x) :
    cutName mem p name x = mem x := if_neg fun ⟨_, hlt⟩ => absurd h (Nat.not_le_of_lt hlt)

theorem Unpack.FreedBelow.reuse (h : s.FreedBelow) (noise : Mem) {x : Nat} (hx : s.currentFile ≤ x) :
    (s.reuse noise).mem x = s.mem x := by
  refine if_neg fun hmem => ?_
  have hle := h _ hmem
  have hlt := Nat.lt_div_mul_add (a := x) (show 0 < frameSize by decide)
  rw [Nat.succ_mul] at hle
  omega

theorem Unpack.cutName_data (hh : HeaderAt s.mem s.currentFile e) {x : Nat} (hx : s.currentFile + 512 ≤ x) :
    cutName s.mem s.currentFile e.name x = s.mem x := by
  have hshort := hh.nameShort
  exact cutName_above (by omega)

/-- The effect of the body of the `switch` on an entry. -/
def Unpack.Done (s s' : Unpack) (done : List TarEntry) : Prop :=
  s'.freed = s.freed ∧ s'.visited = s.visited ∧ (∀ x, s.currentFile + 512 ≤ x → s'.mem x = s.mem x) ∧
    ∃ m, Unpacked done s'.v m

theorem Unpack.unpack_file (hh : HeaderAt s.mem s.currentFile e) (hu : Unpacked done s.v m)
    (hw : WellFormed (done ++ e :: rest)) (hfreed : s.FreedBelow) (hnormal : e.typeflag = typeNormal)
    (env : Noise) :
    ∃ s', ((s.create sIfreg).bind fun (n, s) => (s.reuse env.during).write n env.fresh e.data.length) = some s' ∧
      s.Done s' (done ++ [e]) := by
  have hmk : e.makes := .inl hnormal
  obtain ⟨v', p, k, hcreate, hg, hreal⟩ := Unpack.create_eq hh hu hw hmk sIfreg
  let s₁ : Unpack := { s with v := v', mem := cutName s.mem s.currentFile e.name }
  have hfreed₁ : s₁.FreedBelow := hfreed
  have hmem : ∀ x, s.currentFile + 512 ≤ x → (s₁.reuse env.during).mem x = s.mem x := fun x hx =>
    (hfreed₁.reuse _ (le_trans (Nat.le_add_right _ _) hx)).trans (cutName_data hh hx)
  have hch : (v'.node s.v.count).children = none := by
    have hnone := hg.dir
    rwa [show sIsDir sIfreg = false from rfl, Option.isSome_eq_false_iff, Option.isNone_iff_eq_none] at hnone
  obtain ⟨node, data, st, hwrite, hnode, hholds⟩ :=
    @Unpack.write_eq (s₁.reuse env.during) e s.v.count ((bytesAt_congr fun x hx _ => hmem x hx).trans hh.data) hh.size_lt
      (hg.file rfl rfl) hg.fs hg.stMode hch env.fresh
  refine ⟨{ s₁.reuse env.during with v := v'.modify s.v.count fun _ => node }, ?_, rfl, rfl, hmem,
    m.insert e.comps s.v.count sIfreg, ?_⟩
  · rw [hcreate, Option.bind_some]
    exact hwrite
  · refine hu.insert ?_ (hreal.same (sameTree_modify hnode)) (hu.canCreate hw hmk).1 hmk ?_ ?_
    · intro x hx
      rw [Vfs.modify_of_ne _ (Nat.ne_of_lt hx)]
      exact hg.old hx
    · intro hdir
      rw [hnormal] at hdir
      cases hdir
    · intro _
      rw [Vfs.modify_self]
      exact ⟨rfl, hholds⟩

theorem Unpack.unpack_directory (hh : HeaderAt s.mem s.currentFile e) (hu : Unpacked done s.v m)
    (hw : WellFormed (done ++ e :: rest)) (hdir : e.typeflag = typeDirectory) :
    ∃ s', (s.create sIfdir).map Prod.snd = some s' ∧ s.Done s' (done ++ [e]) := by
  have hmk : e.makes := .inr hdir
  obtain ⟨v', p, k, hcreate, hg, hreal⟩ := Unpack.create_eq hh hu hw hmk sIfdir
  rw [hcreate]
  refine ⟨_, rfl, rfl, rfl, fun x => cutName_data hh, m.insert e.comps s.v.count sIfdir, ?_⟩
  refine hu.insert hg.old hreal (hu.canCreate hw hmk).1 hmk ?_ ?_
  · exact fun _ => ⟨rfl, hg.stMode, hg.dir⟩
  · intro hnormal
    rw [hdir] at hnormal
    cases hnormal

/-- An entry of another type makes nothing. -/
theorem Unpacked.other (h : Unpacked done v m) (hno : ¬ e.makes) : Unpacked (done ++ [e]) v m := by
  have hold : ∀ {d}, d ∈ done ++ [e] → d.makes → d ∈ done := by
    intro d hd hmk
    rcases List.mem_append.mp hd with hd | hd
    · exact hd
    · cases List.mem_singleton.mp hd
      exact absurd hmk hno
  refine ⟨h.real, ?_, ?_, ?_⟩
  · exact fun d hd ht => h.dirs d (hold hd (.inr ht)) ht
  · exact fun d hd ht => h.files d (hold hd (.inl ht)) ht
  · intro cs x hx
    obtain ⟨d, hd, hrest⟩ := h.only hx
    exact ⟨d, List.mem_append_left _ hd, hrest⟩

theorem Unpack.unpackType_eq (hh : HeaderAt s.mem s.currentFile e) (hu : Unpacked done s.v m)
    (hw : WellFormed (done ++ e :: rest)) (hfreed : s.FreedBelow) (env : Noise) :
    ∃ s', s.unpackType env e.data.length = some s' ∧ s.Done s' (done ++ [e]) := by
  simp only [Unpack.unpackType, hh.typeflag]
  by_cases hnormal : e.typeflag = typeNormal
  · rw [if_pos hnormal]
    exact Unpack.unpack_file hh hu hw hfreed hnormal env
  · by_cases hdir : e.typeflag = typeDirectory
    · rw [if_neg hnormal, if_pos hdir]
      exact Unpack.unpack_directory hh hu hw hdir
    · rw [if_neg hnormal, if_neg hdir]
      refine ⟨s, rfl, rfl, rfl, fun _ _ => rfl, m, hu.other ?_⟩
      rintro (h | h)
      · exact hnormal h
      · exact hdir h

/-- The frames that are given back for a span end before it does. -/
theorem frames_below {p span f : Nat} (hf : f ∈ List.range' (p / frameSize) (span / frameSize)) :
    (f + 1) * frameSize ≤ p + span := by
  rw [List.mem_range'_1] at hf
  have hlo := Nat.div_mul_le_self p frameSize
  have hhi := Nat.div_mul_le_self span frameSize
  calc (f + 1) * frameSize ≤ (p / frameSize + span / frameSize) * frameSize := Nat.mul_le_mul_right _ hf.2
    _ ≤ p + span := by
        rw [Nat.add_mul]
        exact Nat.add_le_add hlo hhi

/-- One turn of the loop handles one entry and steps to the next header. -/
theorem Unpack.turn_eq (hh : HeaderAt s.mem s.currentFile e) (hu : Unpacked done s.v m)
    (hw : WellFormed (done ++ e :: rest)) (hfreed : s.FreedBelow) (env : Noise) :
    ∃ s' m', s.turn env = some s' ∧ s'.currentFile = s.currentFile + e.span ∧ s'.FreedBelow ∧
      s'.visited = s.visited ++ [s.currentFile] ∧ s'.freed = s.freed ++ framesOf (s.currentFile, e) ∧
      (∀ x, s.currentFile + e.span ≤ x → s'.mem x = s.mem x) ∧ Unpacked (done ++ [e]) s'.v m' := by
  obtain ⟨s', htype, hf, hvis, hmem, m', hu'⟩ := Unpack.unpackType_eq hh hu hw hfreed env
  have hspan : (512 + alignUp512 e.data.length) % 2 ^ 64 = e.span := by
    have hlt := hh.size_lt
    rw [alignUp512_eq hlt, TarEntry.span, fileSpan, Nat.mod_eq_of_lt (by omega)]
  have h512 : 512 ≤ e.span := Nat.le_add_right _ _
  refine ⟨{ s' with
    freed := s'.freed ++ List.range' (s.currentFile / frameSize) (e.span / frameSize)
    currentFile := s.currentFile + e.span
    visited := s'.visited ++ [s.currentFile] }, m', ?_, rfl, ?_, ?_, ?_, ?_, hu'⟩
  · simp only [Unpack.turn, hh.oct2int, hspan, htype, Option.bind_eq_bind, Option.bind_some]
    rfl
  · intro f hmem
    rcases List.mem_append.mp hmem with hold | hnew
    · rw [hf] at hold
      exact le_trans (hfreed f hold) (Nat.le_add_right _ _)
    · exact frames_below hnew
  · rw [hvis]
  · rw [hf]
    rfl
  · exact fun x hx => hmem x (le_trans (Nat.add_le_add_left h512 _) hx)

theorem Spells.path_ne {path : List Byte} {cs : List (List Byte)} (h : Spells path cs) : path ≠ [] := by
  obtain ⟨lead, trail, rfl⟩ := h.eq
  obtain ⟨x, xs, hx, -⟩ := intercalate_head h.ne_nil fun c hc => (h.comps c hc).piece
  simp [spell, hx]

theorem Unpack.keys_eq (hh : HeaderAt s.mem s.currentFile e) (hne : e.makes → e.name ≠ []) :
    s.keys = if e.makes then [keySpan s.currentFile e.name] else [] := by
  simp only [keys, hh.typeflag, hh.strAt]
  by_cases hmk : e.makes
  · rw [if_pos hmk, if_pos ⟨hmk, hne hmk⟩]
  · rw [if_neg hmk, if_neg fun h => hmk h.1]

theorem archiveKeys_cons (p : Nat) (e : TarEntry) (es : List TarEntry) :
    archiveKeys p (e :: es) =
      (if e.makes then [Unpack.keySpan p e.name] else []) ++ archiveKeys (p + e.span) es := by
  unfold archiveKeys
  rw [located, List.filter_cons]
  by_cases hmk : e.makes <;> simp [hmk]

/-- The loop, from any header of the archive. -/
theorem Unpack.loopKeys_eq (env : Nat → Noise) (k : Nat) (stored : List Span)
    (harch : ArchiveAt s.mem s.currentFile rest) (hu : Unpacked done s.v m) (hw : WellFormed (done ++ rest))
    (hfreed : s.FreedBelow) :
    ∃ s' m', Unpack.loopKeys env (rest.length + 1) k s stored = some (s', stored ++ archiveKeys s.currentFile rest) ∧
      s'.visited = s.visited ++ addresses s.currentFile rest ∧
      s'.freed = s.freed ++ archiveFrames s.currentFile rest ∧ Unpacked (done ++ rest) s'.v m' := by
  induction rest generalizing s k done m stored with
  | nil =>
      cases harch.congr fun x => hfreed.reuse (env k).before with
      | stop hstop =>
          refine ⟨s.reuse (env k).before, m, ?_, (List.append_nil _).symm, (List.append_nil _).symm, ?_⟩
          · rw [archiveKeys, located, List.filter_nil, List.map_nil, List.append_nil]
            exact if_neg hstop
          · rw [List.append_nil]
            exact hu
  | cons e rest ih =>
      have harch' := harch.congr fun x => hfreed.reuse (env k).before
      cases harch' with
      | entry hh hrest =>
          obtain ⟨s', m', hturn, hcur, hfreed', hvis, hframes, hmem, hu'⟩ :=
            @Unpack.turn_eq (s.reuse (env k).before) e done rest m hh hu hw hfreed (env k)
          have harch'' : ArchiveAt s'.mem s'.currentFile rest := by
            rw [hcur]
            exact hrest.congr hmem
          have hw' : WellFormed (done ++ [e] ++ rest) := by rwa [List.append_assoc]
          have hkeys := Unpack.keys_eq hh fun hmk => (hw.spelled e (by simp) hmk).path_ne
          obtain ⟨s'', m'', hloop, hvis', hframes', hu''⟩ :=
            ih (k + 1) (stored ++ (s.reuse (env k).before).keys) harch'' hu' hw' hfreed'
          refine ⟨s'', m'', ?_, ?_, ?_, ?_⟩
          · refine (if_pos hh.magic).trans ?_
            rw [hturn, Option.bind_some, archiveKeys_cons, ← List.append_assoc]
            rw [hcur, hkeys] at hloop
            rw [hkeys]
            exact hloop
          · rw [hvis', hvis, hcur, List.append_assoc]
            rfl
          · rw [hframes', hframes, hcur, List.append_assoc]
            rfl
          · rwa [List.append_assoc] at hu''

end Run

theorem unpacked_init {heap : Nat → Mem} {v : Vfs} (h : vfsInit heap = some v) :
    Unpacked [] v fun _ => none := by
  refine ⟨(CreateRun.init h).realizes, ?_, ?_, ?_⟩
  · exact fun e he => (List.not_mem_nil he).elim
  · exact fun e he => (List.not_mem_nil he).elim
  · rintro cs x ⟨⟩

/-- Unpacking is faithful: the loop visits the headers in order and returns, no
assertion fails, directories and files are found under their names, files with
their bytes, and nothing is found under other names. -/
theorem initramfs_unpacks {heap : Nat → Mem} {v : Vfs} (hv : vfsInit heap = some v) {m : Mem}
    {address : Nat} {es : List TarEntry} (harch : ArchiveAt m address es) (hw : WellFormed es)
    (env : Nat → Noise) :
    ∃ s, initramfsInit env (es.length + 1) m address v = some s ∧ s.visited = addresses address es ∧
      (∀ e ∈ es, e.typeflag = typeDirectory →
        ∃ n, getNode s.v s.v.root e.name = some (some n) ∧ IsDirectory (s.v.node n)) ∧
      (∀ e ∈ es, e.typeflag = typeNormal →
        ∃ n, getNode s.v s.v.root e.name = some (some n) ∧ HoldsFile e.data (s.v.node n)) ∧
      ∀ q qs, Spells q qs → (∀ e ∈ es, e.typeflag = typeDirectory → e.comps ≠ qs) →
        (∀ e ∈ es, e.typeflag = typeNormal → ¬ e.comps <+: qs) → getNode s.v s.v.root q = some none := by
  obtain ⟨s, m', hkeys, hvis, -, hu⟩ := @Unpack.loopKeys_eq ⟨m, address, v, [], []⟩ [] es _ env 0 [] harch
    (unpacked_init hv) hw fun f hf => (List.not_mem_nil hf).elim
  have hloop : initramfsInit env (es.length + 1) m address v = some s := by
    rw [initramfsInit, ← Unpack.loopKeys_state env _ 0 _ [], hkeys]
    rfl
  have hget : ∀ {e x}, e ∈ es → e.makes → m' e.comps = some x →
      getNode s.v s.v.root e.name = some (some x.node) := by
    intro e x he hmk hx
    rw [hu.real.getNode (hw.spelled e he hmk) (hu.real.noFileBelow hx), hx]
    rfl
  refine ⟨s, hloop, hvis, ?_, ?_, ?_⟩
  · intro e he ht
    obtain ⟨n, hn, hdir⟩ := hu.dirs e he ht
    exact ⟨n, hget he (.inr ht) hn, hdir⟩
  · intro e he ht
    obtain ⟨n, hn, hfile⟩ := hu.files e he ht
    exact ⟨n, hget he (.inl ht) hn, hfile⟩
  · intro q qs hq hdirs hfiles
    have hbelow : m'.NoFileBelow qs := by
      rintro pre c rest rfl x hx
      obtain ⟨e, he, hmk | hmk, rfl⟩ := hu.only hx
      · exact absurd (List.prefix_append _ _) (hfiles e he hmk)
      · obtain ⟨n, hn, _⟩ := hu.dirs e he hmk
        rw [hn] at hx
        cases hx
        rfl
    rw [hu.real.getNode hq hbelow]
    cases hx : m' qs with
    | none => rfl
    | some x =>
        obtain ⟨e, he, hmk | hmk, rfl⟩ := hu.only hx
        · exact absurd List.prefix_rfl (hfiles e he hmk)
        · exact absurd rfl (hdirs e he hmk)

/-! ### An archive of three entries -/

def header (m : Mem) (p : Nat) (e : TarEntry) (size : List Byte) : Mem :=
  storeBytes (storeBytes (storeBytes (storeBytes (storeBytes m p e.name) (p + tarSize) size)
    (p + tarTypeflag) [e.typeflag]) (p + tarMagic) ustar) (p + 512) e.data

def entryA : TarEntry := ⟨ofChars ['a', '/'], typeDirectory, []⟩
def entryB : TarEntry := ⟨ofChars ['a', '/', 'b'], typeNormal, ofChars ['h', 'i']⟩
def entryL : TarEntry := ⟨ofChars ['l'], 50, []⟩

/-- The directory "a/", the file "a/b" and a symbolic link "l". -/
def smallArchive : Mem :=
  header (header (header (fun _ => 0) 4096 entryA (ofChars ['0'])) 4608 entryB (ofChars ['2']))
    5632 entryL (ofChars ['0'])

theorem smallArchive_at : ArchiveAt smallArchive 4096 [entryA, entryB, entryL] := by
  refine .entry ⟨?_, ?_, ?_, ?_, ⟨[0], ?_, ?_, ?_, ?_, ?_⟩, ?_, ?_, ?_⟩ (.entry
    ⟨?_, ?_, ?_, ?_, ⟨[2], ?_, ?_, ?_, ?_, ?_⟩, ?_, ?_, ?_⟩ (.entry
    ⟨?_, ?_, ?_, ?_, ⟨[0], ?_, ?_, ?_, ?_, ?_⟩, ?_, ?_, ?_⟩ (.stop ?_))) <;> decide +kernel

theorem component_b : Component (ofChars ['b']) :=
  ⟨by decide, by decide, by decide, by decide, by decide⟩

theorem component_l : Component (ofChars ['l']) :=
  ⟨by decide, by decide, by decide, by decide, by decide⟩

theorem Spells.comps_eq {e : TarEntry} {cs : List (List Byte)} (h : Spells e.name cs) : e.comps = cs := by
  rw [TarEntry.comps, h.segments, Option.getD_some]

theorem spells_entryA : Spells entryA.name [pathA] := spells_pathA false true

theorem spells_entryB : Spells entryB.name [pathA, ofChars ['b']] := by
  refine ⟨by decide, ?_, false, false, by decide⟩
  intro c hc
  rcases List.mem_pair.mp hc with rfl | rfl
  · exact component_pathA
  · exact component_b

theorem not_makes_entryL : ¬ entryL.makes := by
  rintro (h | h) <;> cases h

theorem smallArchive_wellFormed : WellFormed [entryA, entryB, entryL] := by
  have ha := spells_entryA.comps_eq
  have hb := spells_entryB.comps_eq
  constructor
  · intro e he hmk
    simp only [List.mem_cons, List.not_mem_nil, or_false] at he
    rcases he with rfl | rfl | rfl
    · rw [ha]
      exact spells_entryA
    · rw [hb]
      exact spells_entryB
    · exact absurd hmk not_makes_entryL
  · simp only [List.pairwise_cons, List.mem_cons, List.not_mem_nil, or_false]
    refine ⟨?_, ?_, ?_⟩
    · rintro e (rfl | rfl) _ hmk
      · rw [ha, hb]
        decide
      · exact absurd hmk not_makes_entryL
    · rintro e rfl _ hmk
      exact absurd hmk not_makes_entryL
    · simp
  · intro pre e post heq hmk
    rcases pre with _ | ⟨x, _ | ⟨y, _ | ⟨z, pre⟩⟩⟩
    · cases heq
      rw [ha]
      exact .inl rfl
    · cases heq
      rw [hb]
      exact .inr ⟨entryA, List.mem_cons_self, rfl, ha⟩
    · cases heq
      exact absurd hmk not_makes_entryL
    · cases pre <;> cases heq

theorem smallArchive_unpacks : ∃ s,
    initramfsInit (fun _ => ⟨fun _ => 255, fun _ => 255, fun _ => 255⟩) 4 smallArchive 4096 initTree = some s ∧
      s.visited = [4096, 4608, 5632] ∧
      (∃ n, getNode s.v s.v.root entryB.name = some (some n) ∧ HoldsFile (ofChars ['h', 'i']) (s.v.node n)) ∧
      getNode s.v s.v.root entryL.name = some none := by
  obtain ⟨s, hs, hvis, -, hfiles, hnone⟩ := initramfs_unpacks
    (show vfsInit (fun _ _ => 0) = some initTree from rfl) smallArchive_at smallArchive_wellFormed
    fun _ => ⟨fun _ => 255, fun _ => 255, fun _ => 255⟩
  refine ⟨s, hs, hvis, hfiles entryB (by simp) rfl, hnone _ [ofChars ['l']] ?_ ?_ ?_⟩
  · refine ⟨by decide, ?_, false, false, by decide⟩
    intro c hc
    rw [List.mem_singleton.mp hc]
    exact component_l
  · intro e he ht
    simp only [List.mem_cons, List.not_mem_nil, or_false] at he
    rcases he with rfl | rfl | rfl
    · rw [spells_entryA.comps_eq]
      decide
    · cases ht
    · cases ht
  · intro e he ht
    simp only [List.mem_cons, List.not_mem_nil, or_false] at he
    rcases he with rfl | rfl | rfl
    · cases ht
    · rw [spells_entryB.comps_eq]
      decide
    · cases ht

end Flan.Fs
