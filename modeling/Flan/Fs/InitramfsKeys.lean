import Flan.Fs.CStr
import Flan.Fs.Initramfs

/-! The keys of the hashmaps are strings in the headers of the archive, whose frames are
given back while the loop goes on. -/
namespace Flan.Fs
open Flan.Lib Flan.Memory

/-- No byte of a key lies in a frame that was given back. -/
def KeysKept (freed : List Nat) (stored : List Span) : Prop :=
  ∀ f ∈ freed, ∀ key ∈ stored, ∀ x, key.Has x → x / frameSize ≠ f

/-- No file or directory has a byte of its last component in a frame that is given back
with it or with a later entry. -/
def NamesClear (address : Nat) (es : List TarEntry) : Prop :=
  ∀ d ∈ located address es, d.2.makes → ∀ e ∈ located address es, d.1 ≤ e.1 →
    ∀ x, (Unpack.keySpan d.1 d.2.name).Has x → x / frameSize ∉ framesOf e

/-! ### The key in the header -/

section Key
variable {m : Mem} {p x : Nat} {name : List Byte} {e : TarEntry}

theorem keySpan_bounds (hx : (Unpack.keySpan p name).Has x) : p ≤ x ∧ x < p + name.length + 2 := by
  have hlast := stripEnd_le name (name.length - 1)
  have hstart := baseStart_le name (stripEnd name (name.length - 1))
  simp only [Unpack.keySpan, Span.Has, Span.hi] at hx
  omega

/-- Once `basename` has cut the name off, the string at the pointer is the key. -/
theorem HeaderAt.key (h : HeaderAt m p e) (hne : e.name ≠ []) :
    Fs.strAt (Unpack.cutName m p e.name) (Unpack.keySpan p e.name).lo = basename e.name := by
  have hlen : (basename e.name).length ≤ e.name.length := by
    rw [basename, if_neg hne, List.length_drop]
    exact (Nat.sub_le _ _).trans (List.length_take_le' _ _)
  have hshort := h.nameShort
  exact cString_of_bytes (CStr.cutEnd_bytes (bytes_of_bytesAt h.name h.nameEnds) hne)
    (CStr.zero_not_mem_basename h.nameStr hne) (by omega)

/-- The pointer and the memory that the model of the loop takes from `basename`. -/
theorem HeaderAt.basename (h : HeaderAt m p e) (hp : p ≠ 0) (hne : e.name ≠ []) {fuel : Nat} (hf : 100 ≤ fuel)
    (dot : Nat) : CStr.basename dot fuel m p = some ((Unpack.keySpan p e.name).lo, Unpack.cutName m p e.name) :=
  CStr.basename_eq ⟨hp, bytes_of_bytesAt h.name h.nameEnds, h.nameStr⟩ hne (lt_of_lt_of_le h.nameShort hf) dot

end Key

/-! ### The archive -/

section Archive
variable {m : Mem} {p : Nat} {es : List TarEntry} {d e : Nat × TarEntry}

theorem located_header (h : ArchiveAt m p es) (hd : d ∈ located p es) : HeaderAt m d.1 d.2 := by
  induction h with
  | stop h => cases hd
  | entry h hrest ih =>
      rcases List.mem_cons.mp hd with rfl | hd
      · exact h
      · exact ih hd

theorem located_ge (hd : d ∈ located p es) : p ≤ d.1 := by
  induction es generalizing p with
  | nil => cases hd
  | cons e es ih =>
      rcases List.mem_cons.mp hd with rfl | hd
      · exact le_refl p
      · exact (Nat.le_add_right p e.span).trans (ih hd)

/-- An entry ends before the next one begins. -/
theorem located_order (hd : d ∈ located p es) (he : e ∈ located p es) (hlt : e.1 < d.1) : e.1 + e.2.span ≤ d.1 := by
  induction es generalizing p with
  | nil => cases hd
  | cons a es ih =>
      rcases List.mem_cons.mp hd with rfl | hd <;> rcases List.mem_cons.mp he with rfl | he
      · exact absurd hlt (lt_irrefl p)
      · have hge := located_ge he
        simp only at hlt
        omega
      · exact located_ge hd
      · exact ih hd he

theorem located_aligned (hp : 512 ∣ p) (hd : d ∈ located p es) : 512 ∣ d.1 := by
  induction es generalizing p with
  | nil => cases hd
  | cons e es ih =>
      rcases List.mem_cons.mp hd with rfl | hd
      · exact hp
      · refine ih ?_ hd
        unfold TarEntry.span fileSpan
        omega

theorem mem_framesOf {f : Nat} :
    f ∈ framesOf e ↔ e.1 / frameSize ≤ f ∧ f < e.1 / frameSize + e.2.span / frameSize := by
  rw [framesOf, List.mem_range'_1]

theorem mem_archiveKeys {key : Span} :
    key ∈ archiveKeys p es ↔ ∃ d ∈ located p es, d.2.makes ∧ Unpack.keySpan d.1 d.2.name = key := by
  simp only [archiveKeys, List.mem_map, List.mem_filter, decide_eq_true_eq, and_assoc]

/-- The frames of an entry end before the entries behind it. -/
theorem not_mem_framesOf_of_behind {x : Nat} (hx : e.1 + e.2.span ≤ x) : x / frameSize ∉ framesOf e := by
  rw [mem_framesOf]
  rintro ⟨-, hlt⟩
  simp only [frameSize] at hlt
  omega

theorem keysKept_iff : KeysKept (archiveFrames p es) (archiveKeys p es) ↔ NamesClear p es := by
  constructor
  · intro hk d hd hmk e he _ x hx hmem
    exact hk _ (List.mem_flatMap.mpr ⟨e, he, hmem⟩) _ (mem_archiveKeys.mpr ⟨d, hd, hmk, rfl⟩) x hx rfl
  · intro hclear f hf key hkey x hx heq
    obtain ⟨e, he, hmem⟩ := List.mem_flatMap.mp hf
    obtain ⟨d, hd, hmk, rfl⟩ := mem_archiveKeys.mp hkey
    subst heq
    by_cases hle : d.1 ≤ e.1
    · exact hclear d hd hmk e he hle x hx hmem
    · have hbefore := located_order hd he (Nat.not_le.mp hle)
      exact not_mem_framesOf_of_behind (hbefore.trans (keySpan_bounds hx).1) hmem

/-- In an archive at a multiple of a block, as every module of the bootloader is, a name
is in the frame where its header begins. -/
theorem namesClear_iff (harch : ArchiveAt m p es) (hp : 512 ∣ p) :
    NamesClear p es ↔ ∀ d ∈ located p es, d.2.makes → ∀ e ∈ located p es, d.1 ≤ e.1 →
      frameSize ≤ e.2.span → d.1 / frameSize ≠ e.1 / frameSize := by
  have hframe : ∀ d ∈ located p es, ∀ x, (Unpack.keySpan d.1 d.2.name).Has x → x / frameSize = d.1 / frameSize := by
    intro d hd x hx
    have hbounds := keySpan_bounds hx
    have hshort := (located_header harch hd).nameShort
    have haligned := located_aligned hp hd
    simp only [frameSize]
    omega
  have hpos : 0 < frameSize := by decide
  constructor
  · intro hclear d hd hmk e he hle hspan heq
    have hkey : (Unpack.keySpan d.1 d.2.name).Has (Unpack.keySpan d.1 d.2.name).lo := by
      refine ⟨le_refl _, ?_⟩
      simp only [Unpack.keySpan, Span.hi]
      omega
    refine hclear d hd hmk e he hle _ hkey ?_
    rw [hframe d hd _ hkey, heq, mem_framesOf]
    exact ⟨le_refl _, Nat.lt_add_of_pos_right (Nat.div_pos hspan hpos)⟩
  · intro hclear d hd hmk e he hle x hx hmem
    rw [hframe d hd x hx, mem_framesOf] at hmem
    have hspan : frameSize ≤ e.2.span := by
      by_contra hno
      rw [Nat.div_eq_of_lt (Nat.not_le.mp hno)] at hmem
      omega
    exact hclear d hd hmk e he hle hspan (Nat.le_antisymm (Nat.div_le_div_right hle) hmem.1)

end Archive

/-! ### The loop -/

section Result
variable {heap : Nat → Mem} {v : Vfs} {m : Mem} {address : Nat} {es : List TarEntry}

theorem initramfsKeys_eq (hv : vfsInit heap = some v) (harch : ArchiveAt m address es) (hw : WellFormed es)
    (env : Nat → Noise) : ∃ s, initramfsKeys env (es.length + 1) m address v = some (s, archiveKeys address es) ∧
      s.freed = archiveFrames address es := by
  obtain ⟨s, -, hloop, -, hfreed, -⟩ := @Unpack.loopKeys_eq ⟨m, address, v, [], []⟩ [] es _ env 0 [] harch
    (unpacked_init hv) hw fun f hf => (List.not_mem_nil hf).elim
  exact ⟨s, hloop, hfreed⟩

/-- Unpacking gives no frame back that holds a key exactly if no file or directory has a
byte of its last component in a frame of its own or of a later entry. -/
theorem initramfs_keys_kept_iff (hv : vfsInit heap = some v) (harch : ArchiveAt m address es) (hw : WellFormed es)
    (env : Nat → Noise) : ∃ s stored, initramfsKeys env (es.length + 1) m address v = some (s, stored) ∧
      initramfsInit env (es.length + 1) m address v = some s ∧
      (KeysKept s.freed stored ↔ NamesClear address es) := by
  obtain ⟨s, hkeys, hfreed⟩ := initramfsKeys_eq hv harch hw env
  refine ⟨s, _, hkeys, ?_, ?_⟩
  · rw [initramfsInit, ← Unpack.loopKeys_state env _ 0 _ []]
    exact congrArg (Option.map Prod.fst) hkeys
  · rw [hfreed]
    exact keysKept_iff

end Result

/-! ### Two contiguous files and a file -/

theorem header_outside {m : Mem} {p x : Nat} {e : TarEntry} {size : List Byte} (hname : e.name.length ≤ 512)
    (hsize : size.length ≤ 12) (hx : x < p ∨ p + (512 + e.data.length) ≤ x) : header m p e size x = m x := by
  have hout : ∀ {m : Mem} {k : Nat} {bs : List Byte}, k + bs.length ≤ 512 + e.data.length →
      storeBytes m (p + k) bs x = m x := fun h => storeBytes_outside (by omega)
  have hmagic : tarMagic + ustar.length ≤ 512 := by decide
  have htype : tarTypeflag + [e.typeflag].length ≤ 512 := Nat.add_le_add (by decide : 156 ≤ 511) le_rfl
  have hfield : tarSize + size.length ≤ 512 := (Nat.add_le_add_left hsize _).trans (by decide)
  rw [header, hout le_rfl, hout (by omega), hout (by omega), hout (by omega)]
  exact hout (k := 0) (by omega)

/-- What a file of seven blocks has for data when nothing was written there. -/
theorem bytesAt_zeros {m : Mem} {a n : Nat} (h : ∀ x, a ≤ x → x < a + n → m x = 0) :
    bytesAt m a n = List.replicate n 0 := by
  rw [bytesAt_congr (m := fun _ => 0) h, bytesAt, List.map_const', List.length_range]

/-- A contiguous file, which the loop passes over. -/
def contiguous (name : Char) : TarEntry := ⟨ofChars [name], 55, List.replicate 3584 0⟩

def entryHi : TarEntry := ⟨ofChars ['b'], typeNormal, ofChars ['h', 'i']⟩

/-- The contiguous files "c" and "d" with seven blocks each, and behind them the file "b". -/
def contiguousArchive : Mem :=
  header (header (header (fun _ => 0) 4096 ⟨ofChars ['c'], 55, []⟩ (ofChars ['7', '0', '0', '0']))
    8192 ⟨ofChars ['d'], 55, []⟩ (ofChars ['7', '0', '0', '0'])) 12288 entryHi (ofChars ['2'])

theorem contiguous_span (name : Char) : (contiguous name).span = 4096 := by
  rw [TarEntry.span, fileSpan, contiguous, List.length_replicate]

theorem contiguousArchive_zeros {x : Nat} (h : 4608 ≤ x ∧ x < 8192 ∨ 8704 ≤ x ∧ x < 12288) : contiguousArchive x = 0 := by
  have hlen : entryHi.data.length = 2 := rfl
  rw [contiguousArchive, header_outside (by decide) (by decide) (by omega),
    header_outside (by decide) (by decide) (by simp only [List.length_nil]; omega),
    header_outside (by decide) (by decide) (by simp only [List.length_nil]; omega)]

theorem contiguousArchive_at : ArchiveAt contiguousArchive 4096 [contiguous 'c', contiguous 'd', entryHi] := by
  have hsize : ∀ name, (contiguous name).data.length = Nat.ofDigits 8 [7, 0, 0, 0].reverse := fun _ => List.length_replicate
  have hfile : ArchiveAt contiguousArchive 12288 [entryHi] := by
    refine .entry ⟨?_, ?_, ?_, ?_, ⟨[2], ?_, ?_, ?_, ?_, ?_⟩, ?_, ?_, ?_⟩ (.stop ?_) <;> decide +kernel
  have hdata : ∀ name a, (∀ x, a ≤ x → x < a + 3584 → contiguousArchive x = 0) →
      bytesAt contiguousArchive a (contiguous name).data.length = (contiguous name).data := by
    intro name a hzero
    rw [contiguous, List.length_replicate]
    exact bytesAt_zeros hzero
  have hlast : ArchiveAt contiguousArchive 8192 [contiguous 'd', entryHi] := by
    refine .entry ⟨?_, ?_, ?_, ?_, ⟨[7, 0, 0, 0], ?_, ?_, ?_, ?_, hsize _⟩, ?_, ?_, hdata _ _ fun x hlo hhi => ?zeros⟩
      (by rw [contiguous_span]; exact hfile)
    case zeros => exact contiguousArchive_zeros (.inr (by omega))
    all_goals decide +kernel
  refine .entry ⟨?_, ?_, ?_, ?_, ⟨[7, 0, 0, 0], ?_, ?_, ?_, ?_, hsize _⟩, ?_, ?_, hdata _ _ fun x hlo hhi => ?zeros⟩
    (by rw [contiguous_span]; exact hlast)
  case zeros => exact contiguousArchive_zeros (.inl (by omega))
  all_goals decide +kernel

theorem spells_b : Spells (ofChars ['b']) [ofChars ['b']] := by
  refine ⟨by decide, ?_, false, false, by decide⟩
  intro c hc
  rw [List.mem_singleton.mp hc]
  exact component_b

theorem not_makes_contiguous (name : Char) : ¬ (contiguous name).makes := by
  rintro (h | h) <;> cases h

theorem contiguousArchive_wellFormed : WellFormed [contiguous 'c', contiguous 'd', entryHi] := by
  have hcomps : entryHi.comps = [ofChars ['b']] := spells_b.comps_eq
  have honly : ∀ e ∈ [contiguous 'c', contiguous 'd', entryHi], e.makes → e = entryHi := by
    intro e he hmk
    simp only [List.mem_cons, List.not_mem_nil, or_false] at he
    rcases he with rfl | rfl | rfl
    · exact absurd hmk (not_makes_contiguous _)
    · exact absurd hmk (not_makes_contiguous _)
    · rfl
  refine ⟨fun e he hmk => ?_, ?_, fun pre e post heq hmk => ?_⟩
  · rw [honly e he hmk, hcomps]
    exact spells_b
  · refine .cons (fun e _ hmk => absurd hmk (not_makes_contiguous _)) ?_
    exact .cons (fun e _ hmk => absurd hmk (not_makes_contiguous _)) (List.pairwise_singleton _ _)
  · rw [honly e (heq ▸ by simp) hmk, hcomps]
    exact .inl rfl

/-- The frames of the contiguous files are given back, and the name of the file is in none of them. -/
theorem contiguous_keys_kept : ∃ s stored,
    initramfsKeys (fun _ => ⟨fun _ => 255, fun _ => 255, fun _ => 255⟩) 4 contiguousArchive 4096 initTree =
      some (s, stored) ∧ s.freed = [1, 2] ∧ stored = [⟨12288, 2⟩] ∧ KeysKept s.freed stored := by
  obtain ⟨s, stored, hkeys, -, hiff⟩ := initramfs_keys_kept_iff (show vfsInit (fun _ _ => 0) = some initTree from rfl)
    contiguousArchive_at contiguousArchive_wellFormed fun _ => ⟨fun _ => 255, fun _ => 255, fun _ => 255⟩
  obtain ⟨s', hkeys', hfreed⟩ := initramfsKeys_eq (show vfsInit (fun _ _ => 0) = some initTree from rfl)
    contiguousArchive_at contiguousArchive_wellFormed fun _ => ⟨fun _ => 255, fun _ => 255, fun _ => 255⟩
  obtain ⟨rfl, rfl⟩ := Prod.mk.inj (Option.some.inj (hkeys.symm.trans hkeys'))
  refine ⟨s, _, hkeys, ?_, ?_, hiff.mpr ((namesClear_iff contiguousArchive_at (by decide)).mpr ?_)⟩
  · rw [hfreed]
    decide +kernel
  · decide +kernel
  · decide +kernel

/-! ### A file of seven blocks -/

def entryBig : TarEntry := ⟨ofChars ['b'], typeNormal, List.replicate 3584 0⟩

/-- The file "b" with 3584 bytes, header and data in one frame. -/
def bigArchive : Mem :=
  storeBytes (storeBytes (storeBytes (storeBytes (fun _ => 0) 4096 entryBig.name) (4096 + tarSize)
    (ofChars ['7', '0', '0', '0'])) (4096 + tarTypeflag) [typeNormal]) (4096 + tarMagic) ustar

theorem bigArchive_data : bytesAt bigArchive (4096 + 512) entryBig.data.length = entryBig.data := by
  have hlen : entryBig.data.length = 3584 := List.length_replicate
  rw [hlen]
  exact bytesAt_zeros fun x hx _ => header_outside (e := ⟨ofChars ['b'], typeNormal, []⟩) (by decide) (by decide) (.inr hx)

theorem entryBig_span : entryBig.span = 4096 := by
  rw [TarEntry.span, fileSpan, entryBig, List.length_replicate]

theorem bigArchive_at : ArchiveAt bigArchive 4096 [entryBig] := by
  have hsize : entryBig.data.length = Nat.ofDigits 8 [7, 0, 0, 0].reverse := List.length_replicate
  refine .entry ⟨?_, ?_, ?_, ?_, ⟨[7, 0, 0, 0], ?_, ?_, ?_, ?_, hsize⟩, ?_, ?_, bigArchive_data⟩ (.stop ?stop)
  case stop =>
    rw [entryBig_span]
    decide +kernel
  all_goals decide +kernel

theorem spells_entryBig : Spells entryBig.name [ofChars ['b']] := spells_b

theorem bigArchive_wellFormed : WellFormed [entryBig] := by
  have hcomps := spells_entryBig.comps_eq
  refine ⟨fun e he _ => ?_, List.pairwise_singleton _ _, fun pre e post heq _ => ?_⟩
  · rw [List.mem_singleton.mp he, hcomps]
    exact spells_entryBig
  · cases pre with
    | nil =>
        cases heq
        rw [hcomps]
        exact .inl rfl
    | cons x pre => cases pre <;> cases heq

/-- The frame of the header is given back, and the key of the file is in it. -/
theorem big_file_loses_key : ArchiveAt bigArchive 4096 [entryBig] ∧ WellFormed [entryBig] ∧ ∃ s stored,
    initramfsKeys (fun _ => ⟨fun _ => 255, fun _ => 255, fun _ => 255⟩) 2 bigArchive 4096 initTree = some (s, stored) ∧
      ¬ KeysKept s.freed stored := by
  refine ⟨bigArchive_at, bigArchive_wellFormed, ?_⟩
  obtain ⟨s, hkeys, hfreed⟩ := initramfsKeys_eq (show vfsInit (fun _ _ => 0) = some initTree from rfl)
    bigArchive_at bigArchive_wellFormed fun _ => ⟨fun _ => 255, fun _ => 255, fun _ => 255⟩
  refine ⟨s, _, hkeys, fun hk => ?_⟩
  rw [hfreed, keysKept_iff] at hk
  have hmem : (4096, entryBig) ∈ located 4096 [entryBig] := List.mem_cons_self
  refine hk _ hmem (.inl rfl) _ hmem (le_refl _) 4096 (by decide) ?_
  rw [mem_framesOf, entryBig_span]
  decide

end Flan.Fs
