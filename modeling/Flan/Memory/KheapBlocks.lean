import Flan.Memory.Kheap

/-! The heap as lists of blocks. A memory represents a list of free blocks, in
list order, and the blocks handed out; each elementary write of `kheap.c` moves
it from one such pair of lists to another. -/
namespace Flan.Memory
open Flan.Lib

/-- A block by the address of its header and the size of its payload. -/
structure Blk where
  addr : Nat
  size : Nat
  deriving DecidableEq, Repr

namespace Blk

def extent (b : Blk) : Span := ⟨b.addr, headerSize + b.size⟩

def Apart (a b : Blk) : Prop := a.extent.Apart b.extent

instance : Std.Symm Blk.Apart := ⟨fun _ _ h => Span.Apart.symm h⟩

/-- The remainder `kheap_alloc` splits off behind the first `size` bytes. -/
def rest (b : Blk) (size : Nat) : Blk := ⟨b.addr + headerSize + size, b.size - size - headerSize⟩

end Blk

def Layout.top (L : Layout) : Nat := L.hhdm + frameSize * L.limit

/-- Blocks that lie in the window and do not overlap. -/
structure Placed (L : Layout) (bs : List Blk) : Prop where
  apart : bs.Pairwise Blk.Apart
  window : ∀ b ∈ bs, L.hhdm ≤ b.addr ∧ b.extent.hi ≤ L.top

/-- The addresses at which the heap keeps a header. -/
def IsNode (L : Layout) (bs : List Blk) (a : Nat) : Prop := a ∈ L.freeList :: bs.map Blk.addr

/-- The memory holds these free blocks, in list order, and these others. -/
structure Rep (L : Layout) (m : Mem) (free held : List Blk) : Prop where
  ring : Ring (nextOf m) (prevOf m) (fun _ => True) L.freeList (free.map Blk.addr)
  sizes : ∀ b ∈ free ++ held, blockSize m b.addr = b.size
  placed : Placed L (free ++ held)

/-- The free list alone. The headers of its blocks are among the nodes `N`; nothing is
said of their extents. -/
structure Listed (L : Layout) (N : Nat → Prop) (m : Mem) (free : List Blk) : Prop where
  nodes : Nodes N
  head : N L.freeList
  mem : ∀ b ∈ free, N b.addr
  ring : Ring (nextOf m) (prevOf m) (fun _ => True) L.freeList (free.map Blk.addr)
  sizes : ∀ b ∈ free, blockSize m b.addr = b.size

section Listed
variable {L : Layout} {N : Nat → Prop} {m : Mem} {free U V : List Blk} {b : Blk}

theorem Listed.isNode (hl : Listed L N m free) {x : Nat} (hx : x ∈ L.freeList :: free.map Blk.addr) : N x := by
  rcases List.mem_cons.mp hx with rfl | hx
  · exact hl.head
  · obtain ⟨c, hc, rfl⟩ := List.mem_map.mp hx
    exact hl.mem c hc

/-- Linking in a block behind the blocks of `U`. -/
theorem Listed.insert (hl : Listed L N m (U ++ V)) (hb : N b.addr) (hsize : blockSize m b.addr = b.size)
    (hoff : b.addr ∉ L.freeList :: (U ++ V).map Blk.addr) {p q : Nat} {A B : List Nat}
    (hp : L.freeList :: U.map Blk.addr = A ++ [p]) (hq : V.map Blk.addr ++ [L.freeList] = q :: B) :
    Listed L N (dllListAdd m b.addr p q) (U ++ b :: V) := by
  have hring := hl.ring
  rw [List.map_append] at hring hoff
  have hmem : ∀ x, x ∈ L.freeList :: (U.map Blk.addr ++ V.map Blk.addr) → N x := by
    intro x hx
    rw [← List.map_append] at hx
    exact hl.isNode hx
  have hnp := hmem p (mem_of_last hp)
  have hnq := hmem q (mem_of_first hq)
  have hspec := fun x hx => dllListAdd_spec (m := m) hl.nodes hb hnp hnq (x := x) hx
  have hne : ∀ x ∈ L.freeList :: (U.map Blk.addr ++ V.map Blk.addr), x ≠ b.addr :=
    fun x hx h => hoff (h ▸ hx)
  have hnode : ∀ c ∈ U ++ b :: V, N c.addr ∧ blockSize m c.addr = c.size := by
    intro c hc
    rcases List.mem_cons.mp (List.perm_middle.mem_iff.mp hc) with rfl | hc
    · exact ⟨hb, hsize⟩
    · exact ⟨hl.mem c hc, hl.sizes c hc⟩
  refine ⟨hl.nodes, hl.head, fun c hc => (hnode c hc).1, ?_, fun c hc => ?_⟩
  · rw [List.map_append, List.map_cons]
    refine hring.insert hoff hp hq ?_ ?_ ?_ ?_ ?_ ?_
    · rw [(hspec p hnp).1, if_pos rfl]
    · rw [(hspec _ hb).2.1, if_pos rfl]
    · rw [(hspec _ hb).1, if_neg (hne p (mem_of_last hp)).symm, if_pos rfl]
    · intro _
      rw [(hspec q hnq).2.1, if_neg (hne q (mem_of_first hq)), if_pos rfl]
    · intro x hx hxp
      rw [(hspec x (hmem x hx)).1, if_neg hxp, if_neg (hne x hx)]
    · intro x hx hxq _
      rw [(hspec x (hmem x hx)).2.1, if_neg (hne x hx), if_neg hxq]
  · rw [(hspec _ (hnode c hc).1).2.2]
    exact (hnode c hc).2

/-- The nodes around a block are on the list. -/
theorem Listed.neighbours (hl : Listed L N m (U ++ b :: V)) :
    prevOf m b.addr ∈ L.freeList :: (U ++ V).map Blk.addr ∧ nextOf m b.addr ∈ L.freeList :: (U ++ V).map Blk.addr := by
  have hring := hl.ring
  rw [List.map_append, List.map_cons] at hring
  obtain ⟨A, p, hp⟩ := exists_last L.freeList (U.map Blk.addr)
  obtain ⟨q, B, hq⟩ := exists_first L.freeList (V.map Blk.addr)
  obtain ⟨-, hbp, hbq, -⟩ := hring.neighbours hp hq trivial
  rw [hbp, hbq, List.map_append]
  exact ⟨mem_of_last hp, mem_of_first hq⟩

theorem Listed.isNode_rest (hl : Listed L N m (U ++ b :: V)) {x : Nat}
    (hx : x ∈ L.freeList :: (U ++ V).map Blk.addr) : N x := by
  apply hl.isNode
  rw [List.map_append] at hx
  rw [List.map_append, List.map_cons]
  exact (perm_insert L.freeList b.addr _ _).mem_iff.mpr (List.mem_cons_of_mem _ hx)

/-- What unlinking a block of the list writes, seen from any header. -/
theorem Listed.remove_spec (hl : Listed L N m (U ++ b :: V)) {x : Nat} (hx : N x) :
    nextOf (dllRemove m b.addr) x = (if x = prevOf m b.addr then nextOf m b.addr else nextOf m x) ∧
    prevOf (dllRemove m b.addr) x = (if x = nextOf m b.addr then prevOf m b.addr else prevOf m x) ∧
    blockSize (dllRemove m b.addr) x = blockSize m x :=
  dllRemove_spec hl.nodes (hl.mem b (by simp)) (hl.isNode_rest hl.neighbours.1)
    (hl.isNode_rest hl.neighbours.2) hx

theorem Listed.remove (hl : Listed L N m (U ++ b :: V)) : Listed L N (dllRemove m b.addr) (U ++ V) := by
  have hring := hl.ring
  rw [List.map_append, List.map_cons] at hring
  obtain ⟨A, p, hp⟩ := exists_last L.freeList (U.map Blk.addr)
  obtain ⟨q, B, hq⟩ := exists_first L.freeList (V.map Blk.addr)
  obtain ⟨_, hbp, hbq, _⟩ := hring.neighbours hp hq trivial
  have hspec := fun x hx => hl.remove_spec (x := x) hx
  simp only [hbp, hbq] at hspec
  have hmem : ∀ x, x ∈ L.freeList :: (U.map Blk.addr ++ V.map Blk.addr) → N x := by
    intro x hx
    rw [← List.map_append] at hx
    exact hl.isNode_rest hx
  have hsub : ∀ c ∈ U ++ V, c ∈ U ++ b :: V :=
    fun c hc => List.perm_middle.mem_iff.mpr (List.mem_cons_of_mem b hc)
  refine ⟨hl.nodes, hl.head, fun c hc => hl.mem c (hsub c hc), ?_, fun c hc => ?_⟩
  · rw [List.map_append]
    refine hring.remove hp hq ?_ ?_ ?_ ?_
    · rw [(hspec p (hmem p (mem_of_last hp))).1, if_pos rfl]
    · intro _
      rw [(hspec q (hmem q (mem_of_first hq))).2.1, if_pos rfl]
    · intro x hx hxp
      rw [(hspec x (hmem x hx)).1, if_neg hxp]
    · intro x hx hxq _
      rw [(hspec x (hmem x hx)).2.1, if_neg hxq]
  · rw [(hl.remove_spec (hl.mem c (hsub c hc))).2.2]
    exact hl.sizes c (hsub c hc)

theorem Listed.remove_outside (hl : Listed L N m (U ++ b :: V)) {x : Nat}
    (hx : ∀ a ∈ L.freeList :: (U ++ V).map Blk.addr, ¬ (links a).Has x) : dllRemove m b.addr x = m x :=
  dllRemove_outside hl.nodes (hl.mem b (by simp)) (hl.isNode_rest hl.neighbours.1)
    (hl.isNode_rest hl.neighbours.2) (hx _ hl.neighbours.1) (hx _ hl.neighbours.2)

theorem Listed.mono {N' : Nat → Prop} (hl : Listed L N m free) (hN : Nodes N') (hsub : ∀ a, N a → N' a) :
    Listed L N' m free :=
  ⟨hN, hsub _ hl.head, fun b hb => hsub _ (hl.mem b hb), hl.ring, hl.sizes⟩

/-- A size field written off the list. -/
theorem Listed.setSize_off (hl : Listed L N m free) (hb : N b.addr) (hs : b.size < 2 ^ 64)
    (hoff : b.addr ∉ L.freeList :: free.map Blk.addr) :
    Listed L N (setSize m b.addr b.size) free ∧ blockSize (setSize m b.addr b.size) b.addr = b.size := by
  refine ⟨⟨hl.nodes, hl.head, hl.mem, ?_, fun c hc => ?_⟩, (word_setWord hl.nodes hb hb 2 hs).trans (if_pos rfl)⟩
  · exact hl.ring.congr (fun x hx => word_setWord_ne hl.nodes hb (hl.isNode hx) (by decide))
      fun x hx _ => word_setWord_ne hl.nodes hb (hl.isNode hx) (by decide)
  · have hne : c.addr ≠ b.addr := by
      intro heq
      exact hoff (List.mem_cons_of_mem _ (List.mem_map.mpr ⟨c, hc, heq⟩))
    exact ((word_setWord hl.nodes hb (hl.mem c hc) 2 hs).trans (if_neg hne)).trans (hl.sizes c hc)

/-- `add_block` appends to the list, and writes only the new header and links of the list. -/
theorem Listed.addBlock (hl : Listed L N m free) (hb : N b.addr) (hs : b.size < 2 ^ 64)
    (hoff : b.addr ∉ L.freeList :: free.map Blk.addr) :
    Listed L N (addBlock L m b.addr (b.size + headerSize)) (free ++ [b]) ∧
      ∀ x, ¬ (headerAt b.addr).Has x → (∀ a ∈ L.freeList :: free.map Blk.addr, ¬ (links a).Has x) →
        Memory.addBlock L m b.addr (b.size + headerSize) x = m x := by
  have hfield : (b.size + headerSize + 2 ^ 64 - headerSize) % 2 ^ 64 = b.size := by
    rw [headerSize]
    omega
  obtain ⟨hsized, hsize⟩ := hl.setSize_off hb hs hoff
  obtain ⟨A, p, hlast⟩ := exists_last L.freeList (free.map Blk.addr)
  have hback : prevOf (setSize m b.addr b.size) L.freeList = p :=
    (hsized.ring.link (A := A) (x := p) (y := L.freeList) (B := []) (by rw [hlast]; simp)).2 trivial
  simp only [Memory.addBlock, hfield, hback]
  constructor
  · rw [← List.append_nil free] at hsized hoff
    exact hsized.insert hb hsize hoff hlast rfl
  · intro x hx hlinks
    have hp : p ∈ L.freeList :: free.map Blk.addr := by
      rw [hlast]
      simp
    refine (dllListAdd_outside (not_links_of_not_header hx) (hlinks p hp) (hlinks _ List.mem_cons_self)).trans ?_
    exact setSize_outside hx

end Listed

section Lists
variable {L : Layout} {m m' : Mem} {bs cs free held U V : List Blk} {a b : Blk}

theorem Placed.perm (h : Placed L bs) (hp : bs.Perm cs) : Placed L cs :=
  ⟨(hp.pairwise_iff fun hab => symm hab).mp h.apart,
    fun b hb => h.window b (hp.mem_iff.mpr hb)⟩

theorem Placed.bound (h : Placed L bs) (hb : b ∈ bs) :
    b.addr + headerSize + b.size ≤ 2 ^ 64 := by
  have hwin := (h.window b hb).2
  have htop := L.window_le
  simp only [Blk.extent, Span.hi, Layout.top] at hwin
  omega

theorem Placed.size_lt (h : Placed L bs) (hb : b ∈ bs) : b.size < 2 ^ 64 := by
  have hbound := h.bound hb
  rw [headerSize] at hbound
  omega

theorem Placed.ne_freeList (h : Placed L bs) (hb : b ∈ bs) : b.addr ≠ L.freeList := by
  have hlo := (h.window b hb).1
  have hhi := (h.window b hb).2
  have hap := L.apart
  simp only [Blk.extent, Span.hi, Layout.top, headerSize] at hlo hhi hap
  omega

/-- Two members at one address are the same block. -/
theorem Placed.eq_of_addr (h : Placed L bs) (ha : a ∈ bs) (hb : b ∈ bs)
    (hab : a.addr = b.addr) : a = b := by
  by_contra hne
  have hap := h.apart.forall ha hb hne
  simp only [Blk.Apart, Span.Apart, Span.hi, Blk.extent, headerSize] at hap
  omega

theorem Placed.nodes (h : Placed L bs) : Nodes (IsNode L bs) := by
  have hsent : ∀ b ∈ bs, b.addr + headerSize ≤ L.freeList ∨ L.freeList + headerSize ≤ b.addr := by
    intro b hb
    have hlo := (h.window b hb).1
    have hhi := (h.window b hb).2
    have hap := L.apart
    simp only [Blk.extent, Span.hi, Layout.top] at hlo hhi hap
    omega
  refine ⟨?_, ?_⟩
  · intro x y hx hy
    rcases List.mem_cons.mp hx with rfl | hx <;> rcases List.mem_cons.mp hy with rfl | hy
    · exact .inl rfl
    · obtain ⟨b, hb, rfl⟩ := List.mem_map.mp hy
      exact .inr (hsent b hb).symm
    · obtain ⟨b, hb, rfl⟩ := List.mem_map.mp hx
      exact .inr (hsent b hb)
    · obtain ⟨b, hb, rfl⟩ := List.mem_map.mp hx
      obtain ⟨c, hc, rfl⟩ := List.mem_map.mp hy
      by_cases hbc : b = c
      · exact .inl (by rw [hbc])
      · have hap := h.apart.forall hb hc hbc
        simp only [Blk.Apart, Span.Apart, Span.hi, Blk.extent] at hap
        exact .inr (by omega)
  · intro x hx
    have hfl := L.freeList_lt
    rw [headerSize] at hfl
    rcases List.mem_cons.mp hx with rfl | hx
    · omega
    · obtain ⟨b, hb, rfl⟩ := List.mem_map.mp hx
      have hbound := h.bound hb
      rw [headerSize] at hbound
      omega

theorem isNode_freeList : IsNode L bs L.freeList := List.mem_cons_self

theorem isNode_of_mem (hb : b ∈ bs) : IsNode L bs b.addr :=
  List.mem_cons_of_mem _ (List.mem_map_of_mem hb)

theorem isNode_perm (hp : bs.Perm cs) {x : Nat} : IsNode L bs x ↔ IsNode L cs x :=
  ((hp.map Blk.addr).cons _).mem_iff

/-- The members of the ring and the nodes around them are all headers. -/
theorem isNode_of_ring {x : Nat} (hx : x ∈ L.freeList :: free.map Blk.addr) : IsNode L (free ++ held) x := by
  rw [IsNode, List.map_append, ← List.cons_append]
  exact List.mem_append_left _ hx

theorem Rep.listed (hr : Rep L m free held) : Listed L (IsNode L (free ++ held)) m free :=
  ⟨hr.placed.nodes, isNode_freeList, fun _ hb => isNode_of_mem (List.mem_append_left _ hb), hr.ring,
    fun b hb => hr.sizes b (List.mem_append_left _ hb)⟩

/-! ### Elementary writes -/

/-- A memory that agrees on every header represents the same lists. -/
theorem Rep.congr (hr : Rep L m free held)
    (h : ∀ x, IsNode L (free ++ held) x → ∀ i, word m' x i = word m x i) : Rep L m' free held := by
  refine ⟨?_, ?_, hr.placed⟩
  · exact hr.ring.congr (fun x hx => h x (isNode_of_ring hx) 0)
      fun x hx _ => h x (isNode_of_ring hx) 1
  · exact fun b hb => (h _ (isNode_of_mem hb) 2).trans (hr.sizes b hb)

theorem Rep.perm (hr : Rep L m free held) {held' : List Blk} (hp : held.Perm held') :
    Rep L m free held' :=
  ⟨hr.ring, fun b hb => hr.sizes b ((hp.append_left free).mem_iff.mpr hb),
    hr.placed.perm (hp.append_left free)⟩

/-- The first block with a property, where there is one. -/
theorem exists_first_block {P : Blk → Prop} (h : ∃ c ∈ bs, P c) :
    ∃ U b V, bs = U ++ b :: V ∧ (∀ d ∈ U, ¬ P d) ∧ P b := by
  induction bs with
  | nil =>
      obtain ⟨c, hc, -⟩ := h
      cases hc
  | cons a bs ih =>
      by_cases ha : P a
      · exact ⟨[], a, bs, rfl, nofun, ha⟩
      · obtain ⟨c, hc, hP⟩ := h
        have hc' : c ∈ bs := (List.mem_cons.mp hc).resolve_left fun heq => ha (heq ▸ hP)
        obtain ⟨U, b, V, rfl, hU, hb⟩ := ih ⟨c, hc', hP⟩
        exact ⟨a :: U, b, V, rfl, List.forall_mem_cons.mpr ⟨ha, hU⟩, hb⟩

theorem perm_free_held (U V held : List Blk) (b : Blk) :
    (U ++ b :: V ++ held).Perm (U ++ V ++ b :: held) := by
  have h : (U ++ b :: V).Perm (b :: (U ++ V)) := List.perm_middle
  exact (h.append_right held).trans List.perm_middle.symm

/-- A block that was handed out is not on the list. -/
theorem Placed.off_list (hp : Placed L (free ++ b :: held)) : b.addr ∉ L.freeList :: free.map Blk.addr := by
  intro h
  rcases List.mem_cons.mp h with h | h
  · exact hp.ne_freeList (by simp) h
  · obtain ⟨c, hc, hcb⟩ := List.mem_map.mp h
    have hap := (List.pairwise_append.mp hp.apart).2.2 c hc b List.mem_cons_self
    simp only [Blk.Apart, Blk.extent, Span.Apart, Span.hi, headerSize, hcb] at hap
    omega

/-- Linking in a block that was handed out, behind the blocks of `U`. -/
theorem Rep.insert (hr : Rep L m (U ++ V) (b :: held)) {p q : Nat} {A B : List Nat}
    (hp : L.freeList :: U.map Blk.addr = A ++ [p]) (hq : V.map Blk.addr ++ [L.freeList] = q :: B) :
    Rep L (dllListAdd m b.addr p q) (U ++ b :: V) held := by
  have hb : b ∈ U ++ V ++ b :: held := by simp
  have hl := hr.listed.insert (isNode_of_mem hb) (hr.sizes b hb) hr.placed.off_list hp hq
  have hperm := perm_free_held U V held b
  have hnp : IsNode L (U ++ V ++ b :: held) p := hr.listed.isNode (by rw [List.map_append]; exact mem_of_last hp)
  have hnq : IsNode L (U ++ V ++ b :: held) q := hr.listed.isNode (by rw [List.map_append]; exact mem_of_first hq)
  refine ⟨hl.ring, fun c hc => ?_, hr.placed.perm hperm.symm⟩
  have hc' := hperm.mem_iff.mp hc
  rw [(dllListAdd_spec hr.placed.nodes (isNode_of_mem hb) hnp hnq (isNode_of_mem hc')).2.2]
  exact hr.sizes c hc'

/-- Taking a block off the list hands it out. -/
theorem Rep.take (hr : Rep L m (U ++ b :: V) held) :
    Rep L (dllRemove m b.addr) (U ++ V) (b :: held) := by
  have hperm := perm_free_held U V held b
  refine ⟨hr.listed.remove.ring, fun c hc => ?_, hr.placed.perm hperm⟩
  have hc' := hperm.mem_iff.mpr hc
  rw [(hr.listed.remove_spec (isNode_of_mem hc')).2.2]
  exact hr.sizes c hc'

/-- A header written where nothing lies yet. -/
theorem Rep.add (hr : Rep L m free held) (hp : Placed L (b :: (free ++ held))) :
    Rep L (setSize m b.addr b.size) free (b :: held) := by
  have hN := hp.nodes
  have hb : IsNode L (b :: (free ++ held)) b.addr := isNode_of_mem List.mem_cons_self
  have hmem : ∀ {x}, IsNode L (free ++ held) x → IsNode L (b :: (free ++ held)) x := by
    intro x hx
    rcases List.mem_cons.mp hx with rfl | hx
    · exact isNode_freeList
    · exact List.mem_cons_of_mem _ (List.mem_cons_of_mem _ hx)
  have hsize := hp.size_lt List.mem_cons_self
  have hperm : (b :: (free ++ held)).Perm (free ++ b :: held) := List.perm_middle.symm
  refine ⟨?_, ?_, hp.perm hperm⟩
  · refine hr.ring.congr ?_ ?_
    · exact fun x hx => word_setWord_ne hN hb (hmem (isNode_of_ring hx)) (by decide)
    · exact fun x hx _ => word_setWord_ne hN hb (hmem (isNode_of_ring hx)) (by decide)
  · intro c hc
    have hc' := hperm.mem_iff.mpr hc
    rw [setSize, blockSize, word_setWord hN hb (isNode_of_mem hc') 2 hsize]
    split
    · rename_i h
      rw [hp.eq_of_addr hc' List.mem_cons_self h]
    · rename_i h
      have hcf : c ∈ free ++ held := (List.mem_cons.mp hc').resolve_left fun hcb => h (by rw [hcb])
      exact hr.sizes c hcf

theorem Placed.split (h : Placed L (b :: bs)) {size : Nat} (hs : size + headerSize ≤ b.size) :
    Placed L (⟨b.addr, size⟩ :: b.rest size :: bs) := by
  obtain ⟨hhead, htail⟩ := List.pairwise_cons.mp h.apart
  have hwin := h.window b List.mem_cons_self
  have hsmall : (⟨b.addr, size⟩ : Blk).extent.Within b.extent := by
    simp only [Span.Within, Span.hi, Blk.extent]
    omega
  have hrest : (b.rest size).extent.Within b.extent := by
    simp only [Span.Within, Span.hi, Blk.extent, Blk.rest]
    omega
  have hsame : ∀ s : Span, s.Within s := fun s => ⟨Nat.le_refl _, Nat.le_refl _⟩
  refine ⟨List.pairwise_cons.mpr ⟨?_, List.pairwise_cons.mpr ⟨?_, htail⟩⟩, ?_⟩
  · refine List.forall_mem_cons.mpr ⟨.inl ?_, fun c hc => ?_⟩
    · simp only [Span.hi, Blk.extent, Blk.rest]
      omega
    · exact (hhead c hc).within hsmall (hsame _)
  · exact fun c hc => (hhead c hc).within hrest (hsame _)
  · refine List.forall_mem_cons.mpr ⟨?_, List.forall_mem_cons.mpr ⟨?_, ?_⟩⟩
    · exact ⟨hwin.1, Nat.le_trans hsmall.2 hwin.2⟩
    · exact ⟨Nat.le_trans hwin.1 hrest.1, Nat.le_trans hrest.2 hwin.2⟩
    · exact fun c hc => h.window c (List.mem_cons_of_mem _ hc)

/-- The two size fields of a split: the remainder has its header, the block in
front of it is shorter, and the list is as before. -/
theorem Rep.shrink (hr : Rep L m (U ++ b :: V) held) {size : Nat}
    (hs : size + headerSize ≤ b.size) :
    Rep L (setSize (setSize m (b.rest size).addr (b.rest size).size) b.addr size)
      (U ++ ⟨b.addr, size⟩ :: V) (b.rest size :: held) := by
  let small : Blk := ⟨b.addr, size⟩
  let new := b.rest size
  have hfront : ∀ c : Blk, (c :: (U ++ V ++ held)).Perm (U ++ c :: V ++ held) := by
    intro c
    exact (List.perm_middle.append_right held).symm
  have hplaced : Placed L (small :: new :: (U ++ V ++ held)) :=
    (hr.placed.perm (hfront b).symm).split hs
  have hN := hplaced.nodes
  have hsmall : IsNode L (small :: new :: (U ++ V ++ held)) b.addr :=
    isNode_of_mem (b := small) List.mem_cons_self
  have hnew : IsNode L (small :: new :: (U ++ V ++ held)) new.addr :=
    isNode_of_mem (List.mem_cons_of_mem _ List.mem_cons_self)
  have hmem : ∀ x, IsNode L (U ++ b :: V ++ held) x → IsNode L (small :: new :: (U ++ V ++ held)) x := by
    intro x hx
    rcases List.mem_cons.mp ((isNode_perm (hfront b).symm).mp hx) with rfl | hx
    · exact isNode_freeList
    · rcases List.mem_cons.mp hx with rfl | hx
      · exact hsmall
      · exact List.mem_cons_of_mem _ (List.mem_cons_of_mem _ (List.mem_cons_of_mem _ hx))
  have hsize := hplaced.size_lt (b := small) List.mem_cons_self
  have hnsize := hplaced.size_lt (b := new) (List.mem_cons_of_mem _ List.mem_cons_self)
  have hlinks : ∀ x, IsNode L (U ++ b :: V ++ held) x → ∀ i : Fin 3, 2 ≠ i →
      word (setSize (setSize m new.addr new.size) b.addr size) x i = word m x i := by
    intro x hx i hi
    exact (word_setWord_ne hN hsmall (hmem x hx) hi).trans (word_setWord_ne hN hnew (hmem x hx) hi)
  have hperm : (small :: new :: (U ++ V ++ held)).Perm (U ++ small :: V ++ new :: held) :=
    (List.Perm.swap new small _).trans (((hfront small).cons new).trans List.perm_middle.symm)
  refine ⟨?_, ?_, hplaced.perm hperm⟩
  · have hmap : (U ++ small :: V).map Blk.addr = (U ++ b :: V).map Blk.addr := by simp [small]
    rw [hmap]
    exact hr.ring.congr (fun x hx => hlinks x (isNode_of_ring hx) 0 (by decide))
      fun x hx _ => hlinks x (isNode_of_ring hx) 1 (by decide)
  · intro c hc
    have hc' := hperm.mem_iff.mpr hc
    have hcn := isNode_of_mem (L := L) hc'
    rw [blockSize, setSize, word_setWord hN hsmall hcn 2 hsize]
    by_cases hcs : c.addr = b.addr
    · rw [if_pos hcs, hplaced.eq_of_addr hc' List.mem_cons_self hcs]
    · rw [if_neg hcs, setSize, word_setWord hN hnew hcn 2 hnsize]
      by_cases hcw : c.addr = new.addr
      · rw [if_pos hcw, hplaced.eq_of_addr hc' (List.mem_cons_of_mem _ List.mem_cons_self) hcw]
      · rw [if_neg hcw]
        refine hr.sizes c ((hfront b).mem_iff.mp (List.mem_cons_of_mem _ ?_))
        rcases List.mem_cons.mp hc' with rfl | hc'
        · exact absurd rfl hcs
        · exact (List.mem_cons.mp hc').resolve_left fun h => hcw (by rw [h])

end Lists

/-! ### Carving a block -/

/-- The part of a free block that `kheap_alloc` hands out, and what stays free. -/
def Blk.carve (b : Blk) (size : Nat) : Blk × List Blk :=
  if headerSize ≤ b.size - size then (⟨b.addr, size⟩, [b.rest size]) else (b, [])

section Carve
variable {L : Layout} {m : Mem} {free held U V : List Blk} {b : Blk} {size : Nat}

theorem Blk.carve_addr (b : Blk) (size : Nat) : (b.carve size).1.addr = b.addr := by
  unfold Blk.carve
  split <;> rfl

theorem Blk.carve_size (hs : size ≤ b.size) : size ≤ (b.carve size).1.size := by
  unfold Blk.carve
  split
  · exact Nat.le_refl size
  · exact hs

theorem Blk.carve_within (hs : size ≤ b.size) :
    ∀ c ∈ (b.carve size).1 :: (b.carve size).2, c.extent.Within b.extent := by
  unfold Blk.carve
  split
  · simp only [List.forall_mem_cons, Span.Within, Span.hi, Blk.extent, Blk.rest]
    refine ⟨by omega, by omega, by simp⟩
  · simp only [List.forall_mem_cons, Span.Within]
    exact ⟨⟨Nat.le_refl _, Nat.le_refl _⟩, by simp⟩

/-- The remainder is linked in behind the block that it is split off. -/
theorem Rep.split (hr : Rep L m (U ++ b :: V) held) (hfit : headerSize ≤ b.size - size) :
    Rep L (splitBlock m b.addr size) (U ++ ⟨b.addr, size⟩ :: b.rest size :: V) held ∧
      ∀ x, ¬ (headerAt b.addr).Has x → ¬ (headerAt (b.rest size).addr).Has x →
        (∀ a ∈ L.freeList :: V.map Blk.addr, ¬ (links a).Has x) → splitBlock m b.addr size x = m x := by
  have hsize : blockSize m b.addr = b.size := hr.sizes b (by simp)
  have hpos : 0 < headerSize := by decide
  have hshrink := hr.shrink (show size + headerSize ≤ b.size by omega)
  obtain ⟨A, p, hp⟩ := exists_last L.freeList (U.map Blk.addr)
  obtain ⟨q, B, hq⟩ := exists_first L.freeList (V.map Blk.addr)
  have hring := hshrink.ring
  rw [List.map_append, List.map_cons] at hring
  have hnext := (hring.neighbours hp hq trivial).2.2.1
  unfold splitBlock
  rw [hsize, if_pos hfit]
  constructor
  · have hsplit : U ++ ⟨b.addr, size⟩ :: V = (U ++ [⟨b.addr, size⟩]) ++ V := by simp
    rw [hsplit] at hshrink
    have hadd := hshrink.insert (A := L.freeList :: U.map Blk.addr) (p := b.addr) (by simp) hq
    have hlist : (U ++ [⟨b.addr, size⟩]) ++ b.rest size :: V =
        U ++ (⟨b.addr, size⟩ : Blk) :: (b.rest size :: V) := by simp
    rw [hlist, ← hnext] at hadd
    exact hadd
  · intro x hfront hrest hlinks
    have hqmem : q ∈ L.freeList :: V.map Blk.addr := mem_of_first (U := []) hq
    refine (dllListAdd_outside (not_links_of_not_header hrest) (not_links_of_not_header hfront) ?_).trans
      ((setSize_outside hfront).trans (setSize_outside hrest))
    change ¬ (links (nextOf (setSize (setSize m (b.rest size).addr (b.rest size).size) b.addr size) b.addr)).Has x
    rw [hnext]
    exact hlinks q hqmem

/-- The writes of `kheap_alloc` once it has found its block. -/
theorem Rep.carve (hr : Rep L m (U ++ b :: V) held) (size : Nat) :
    Rep L (dllRemove (splitBlock m b.addr size) b.addr) (U ++ (b.carve size).2 ++ V)
      ((b.carve size).1 :: held) := by
  unfold Blk.carve
  by_cases hfit : headerSize ≤ b.size - size
  · rw [if_pos hfit, List.append_assoc]
    exact (hr.split hfit).1.take
  · have hsize : blockSize m b.addr = b.size := hr.sizes b (by simp)
    rw [if_neg hfit, splitBlock, hsize, if_neg hfit]
    simpa using hr.take

/-- They are writes to the two headers and to links of the list. -/
theorem Rep.carve_headers (hr : Rep L m (U ++ b :: V) held) {x : Nat} (hhead : ¬ (headerAt b.addr).Has x)
    (hrest : ∀ c ∈ (b.carve size).2, ¬ (headerAt c.addr).Has x)
    (hlinks : ∀ a ∈ L.freeList :: (U ++ V).map Blk.addr, ¬ (links a).Has x) :
    dllRemove (splitBlock m b.addr size) b.addr x = m x := by
  by_cases hfit : headerSize ≤ b.size - size
  · obtain ⟨hsplit, hsame⟩ := hr.split hfit
    have hrest : ¬ (headerAt (b.rest size).addr).Has x := by
      apply hrest
      rw [Blk.carve, if_pos hfit]
      exact List.mem_cons_self
    refine (hsplit.listed.remove_outside fun a ha => ?_).trans (hsame x hhead hrest fun a ha => hlinks a ?_)
    · simp only [List.map_append, List.map_cons, List.mem_cons, List.mem_append] at ha
      rcases ha with rfl | ha | rfl | ha
      · exact hlinks _ List.mem_cons_self
      · exact hlinks a (by simp only [List.map_append, List.mem_cons, List.mem_append]; exact .inr (.inl ha))
      · exact not_links_of_not_header hrest
      · exact hlinks a (by simp only [List.map_append, List.mem_cons, List.mem_append]; exact .inr (.inr ha))
    · simp only [List.map_append, List.mem_cons, List.mem_append] at ha ⊢
      exact ha.imp_right .inr
  · have hsize : blockSize m b.addr = b.size := hr.sizes b (by simp)
    rw [splitBlock, hsize, if_neg hfit]
    exact hr.listed.remove_outside hlinks

/-- Both headers lie in the block that is carved. -/
theorem Rep.carve_outside (hr : Rep L m (U ++ b :: V) held) {x : Nat} (hx : ¬ b.extent.Has x)
    (hlinks : ∀ a ∈ L.freeList :: (U ++ V).map Blk.addr, ¬ (links a).Has x) :
    dllRemove (splitBlock m b.addr size) b.addr x = m x := by
  refine hr.carve_headers ?_ ?_ hlinks
  · simp only [headerAt, Blk.extent, Span.Has, Span.hi] at hx ⊢
    omega
  · unfold Blk.carve
    split
    · intro c hc
      rw [List.mem_singleton.mp hc]
      simp only [headerAt, Blk.extent, Blk.rest, Span.Has, Span.hi] at hx ⊢
      omega
    · intro c hc
      cases hc

/-- `add_block` appends to the list. -/
theorem Rep.addBlock (hr : Rep L m free held) (hp : Placed L (b :: (free ++ held))) :
    Rep L (addBlock L m b.addr (b.size + headerSize)) (free ++ [b]) held := by
  have hsize := hp.size_lt List.mem_cons_self
  have hfield : (b.size + headerSize + 2 ^ 64 - headerSize) % 2 ^ 64 = b.size := by
    rw [headerSize]
    omega
  have hadd := hr.add hp
  obtain ⟨A, p, hlast⟩ := exists_last L.freeList (free.map Blk.addr)
  have hback := (hadd.ring.link (A := A) (x := p) (y := L.freeList) (B := [])
    (by rw [hlast]; simp)).2 trivial
  have hins := Rep.insert (V := []) (by simpa using hadd) hlast (q := L.freeList) (B := []) rfl
  rw [← hback] at hins
  simp only [Flan.Memory.addBlock, hfield]
  exact hins

end Carve

/-! ### Walks along the list -/

section Walks
variable {L : Layout} {m m' : Mem} {prev : Nat → Nat} {back : Nat → Prop} {xs : List Nat}

/-- The blocks on the free list, as the memory has it. -/
def OnFreeList (L : Layout) (m : Mem) (a : Nat) : Prop :=
  a ≠ L.freeList ∧ ∃ k, (nextOf m)^[k] L.freeList = a

/-- No block of the list lies where `coalesce_dll` looks for a neighbour. -/
def CoalesceIdle (L : Layout) (m : Mem) : Prop :=
  ∀ a, OnFreeList L m a → nextOf m a ≠ L.freeList → scaledEnd m a ≠ nextOf m a

theorem onFreeList_iff (hr : Ring (nextOf m) prev back L.freeList xs) {a : Nat} :
    OnFreeList L m a ↔ a ∈ xs := by
  have hnd := List.nodup_cons.mp hr.nodup
  rw [OnFreeList, ← hr.mem_iff_iterate List.mem_cons_self]
  constructor
  · rintro ⟨hne, hmem⟩
    exact (List.mem_cons.mp hmem).resolve_left hne
  · intro hmem
    exact ⟨fun h => hnd.1 (h ▸ hmem), List.mem_cons_of_mem _ hmem⟩

theorem findBlock_sound (hr : Ring (nextOf m) prev back L.freeList xs) {test : Nat → Bool}
    {r : Option Nat} (fuel : Nat) (U V : List Nat) (hxs : xs = U ++ V)
    (h : findBlock L m test fuel (V.headD L.freeList) = some r) : r = V.find? test := by
  induction fuel generalizing U V with
  | zero => cases h
  | succ fuel ih =>
      subst hxs
      unfold findBlock at h
      cases V with
      | nil =>
          rw [List.headD_nil, if_pos rfl] at h
          exact (Option.some.inj h).symm
      | cons v V =>
          have hne : v ≠ L.freeList := by
            rintro rfl
            exact (List.nodup_cons.mp hr.nodup).1 (by simp)
          rw [List.headD_cons, if_neg hne] at h
          by_cases ht : test v = true
          · rw [if_pos ht] at h
            rw [List.find?_cons_of_pos ht]
            exact (Option.some.inj h).symm
          · rw [if_neg ht, hr.next_mem] at h
            rw [List.find?_cons_of_neg ht]
            exact ih (U ++ [v]) V (by simp) h

/-- With enough fuel the walk comes to an end. -/
theorem findBlock_total (hr : Ring (nextOf m) prev back L.freeList xs) (test : Nat → Bool) {fuel : Nat}
    (U V : List Nat) (hxs : xs = U ++ V) (hf : V.length < fuel) :
    findBlock L m test fuel (V.headD L.freeList) = some (V.find? test) := by
  induction V generalizing U fuel with
  | nil =>
      obtain ⟨fuel, rfl⟩ := Nat.exists_eq_succ_of_ne_zero (Nat.ne_zero_of_lt hf)
      exact if_pos rfl
  | cons v V ih =>
      obtain ⟨fuel, rfl⟩ := Nat.exists_eq_succ_of_ne_zero (Nat.ne_zero_of_lt hf)
      subst hxs
      have hne : v ≠ L.freeList := by
        rintro rfl
        exact (List.nodup_cons.mp hr.nodup).1 (by simp)
      rw [findBlock, List.headD_cons, if_neg hne]
      by_cases ht : test v = true
      · rw [if_pos ht, List.find?_cons_of_pos ht]
      · rw [if_neg ht, List.find?_cons_of_neg ht, hr.next_mem]
        exact ih (U ++ [v]) (by simp) (Nat.lt_of_succ_lt_succ hf)

/-- Where no block looks like a neighbour, `coalesce_dll` changes nothing. -/
theorem coalesceLoop_idle (hr : Ring (nextOf m) prev back L.freeList xs) (hi : CoalesceIdle L m)
    (fuel prevBlock : Nat) (U V : List Nat) (hxs : xs = U ++ V)
    (hprev : prevBlock = 0 ∨ OnFreeList L m prevBlock ∧ nextOf m prevBlock = V.headD L.freeList) :
    coalesceLoop L fuel m prevBlock (V.headD L.freeList) =
      if V.length < fuel then some m else none := by
  induction fuel generalizing prevBlock U V with
  | zero => rfl
  | succ fuel ih =>
      subst hxs
      unfold coalesceLoop
      cases V with
      | nil => rw [List.headD_nil, if_pos rfl, List.length_nil, if_pos (Nat.succ_pos fuel)]
      | cons v V =>
          have hne : v ≠ L.freeList := by
            rintro rfl
            exact (List.nodup_cons.mp hr.nodup).1 (by simp)
          have hmiss : ¬ (prevBlock ≠ 0 ∧ scaledEnd m prevBlock = v) := by
            rintro ⟨hnz, hend⟩
            obtain ⟨hon, hnext⟩ := hprev.resolve_left hnz
            rw [List.headD_cons] at hnext
            exact hi prevBlock hon (by rw [hnext]; exact hne) (hend.trans hnext.symm)
          have hon : OnFreeList L m v := (onFreeList_iff hr).mpr (by simp)
          rw [List.headD_cons, if_neg hne, if_neg hmiss, hr.next_mem,
            ih v (U ++ [v]) V (by simp) (.inr ⟨hon, hr.next_mem⟩)]
          simp only [List.length_cons, Nat.succ_lt_succ_iff]

theorem coalesceDll_idle (hr : Ring (nextOf m) prev back L.freeList xs) (hi : CoalesceIdle L m)
    (fuel : Nat) : coalesceDll L fuel m = if xs.length < fuel then some m else none := by
  rw [coalesceDll, hr.next_head]
  exact coalesceLoop_idle hr hi fuel 0 [] xs rfl (.inl rfl)

end Walks

end Flan.Memory
