import Mathlib.Data.Nat.ModEq
import Flan.Memory.KheapCarve

/-! `kheap_free` on the lists of blocks: where the freed block is linked in, and which
blocks `coalesce_dll` then takes for neighbours. -/
namespace Flan.Memory
open Flan.Lib

/-! ### The loop on lists -/

namespace Blk

/-- Where `coalesce_dll` expects the neighbour of a block. -/
def scaledEnd (b : Blk) : Nat := (b.addr + sizeofAllocNode * (b.size + headerSize)) % 2 ^ 64

/-- `coalesce_dll` takes `c`, which follows on the list, for the neighbour of `b`. -/
def Precedes (b c : Blk) : Prop := b.addr ≠ 0 ∧ b.scaledEnd = c.addr

instance (b c : Blk) : Decidable (b.Precedes c) := inferInstanceAs (Decidable (_ ∧ _))

def merge (b c : Blk) : Blk := ⟨b.addr, (b.size + (c.size + headerSize)) % 2 ^ 64⟩

end Blk

/-- The list that `coalesce_dll` leaves from the block `prevBlock` on. -/
def coalesceFrom : (prevBlock : Blk) → List Blk → List Blk
  | b, [] => [b]
  | b, c :: cs => if b.Precedes c then coalesceFrom (b.merge c) cs else b :: coalesceFrom c cs

def coalesced : List Blk → List Blk
  | [] => []
  | b :: cs => coalesceFrom b cs

section Refine
variable {L : Layout} {N : Nat → Prop} {m : Mem} {free U V : List Blk} {b c : Blk} {fuel : Nat}

theorem Listed.addr_ne (hl : Listed L N m (U ++ b :: V)) (hc : c ∈ U ++ V) : c.addr ≠ b.addr := by
  have hnd := hl.ring.nodup
  rw [List.map_append, List.map_cons] at hnd
  have hmem : c.addr ∈ L.freeList :: (U.map Blk.addr ++ V.map Blk.addr) := by
    rw [← List.map_append]
    exact List.mem_cons_of_mem _ (List.mem_map_of_mem hc)
  rintro heq
  rw [heq] at hmem
  exact (List.nodup_cons.mp ((perm_insert L.freeList b.addr _ _).nodup_iff.mp hnd)).1 hmem

theorem Listed.resize (hl : Listed L N m (U ++ b :: V)) (size : Nat) (hs : size < 2 ^ 64) :
    Listed L N (setSize m b.addr size) (U ++ ⟨b.addr, size⟩ :: V) := by
  have hb : N b.addr := hl.mem b (by simp)
  have hmem : ∀ c ∈ U ++ ⟨b.addr, size⟩ :: V, c = ⟨b.addr, size⟩ ∨ c ∈ U ++ V :=
    fun c hc => List.mem_cons.mp (List.perm_middle.mem_iff.mp hc)
  have hold : ∀ c ∈ U ++ V, c ∈ U ++ b :: V :=
    fun c hc => List.perm_middle.mem_iff.mpr (List.mem_cons_of_mem b hc)
  refine ⟨hl.nodes, hl.head, fun c hc => ?_, ?_, fun c hc => ?_⟩
  · rcases hmem c hc with rfl | hc
    · exact hb
    · exact hl.mem c (hold c hc)
  · have hmap : (U ++ (⟨b.addr, size⟩ : Blk) :: V).map Blk.addr = (U ++ b :: V).map Blk.addr := by simp
    rw [hmap]
    exact hl.ring.congr (fun x hx => word_setWord_ne hl.nodes hb (hl.isNode hx) (by decide))
      fun x hx _ => word_setWord_ne hl.nodes hb (hl.isNode hx) (by decide)
  · rcases hmem c hc with rfl | hc
    · exact (word_setWord hl.nodes hb hb 2 hs).trans (if_pos rfl)
    · refine ((word_setWord hl.nodes hb (hl.mem c (hold c hc)) 2 hs).trans (if_neg (hl.addr_ne hc))).trans ?_
      exact hl.sizes c (hold c hc)

theorem Listed.extend (hl : Listed L N m (U ++ b :: c :: V)) :
    Listed L N (setSize m b.addr (b.merge c).size) ((U ++ [b.merge c]) ++ c :: V) := by
  have hresize := hl.resize (b.merge c).size (Nat.mod_lt _ (by decide))
  rw [List.append_assoc]
  exact hresize

/-- The block that follows is merged into its predecessor and taken off the list. -/
theorem Listed.merge (hl : Listed L N m (U ++ b :: c :: V)) :
    Listed L N (dllRemove (setSize m b.addr (b.merge c).size) c.addr) (U ++ b.merge c :: V) := by
  have hremove := hl.extend.remove
  rwa [List.append_assoc] at hremove

/-- A memory that differs in headers only. -/
def SameOutside (N : Nat → Prop) (m m' : Mem) : Prop := ∀ x, (∀ a, N a → ¬ (headerAt a).Has x) → m' x = m x

theorem Listed.merge_outside (hl : Listed L N m (U ++ b :: c :: V)) :
    SameOutside N m (dllRemove (setSize m b.addr (b.merge c).size) c.addr) := by
  intro x hx
  refine (hl.extend.remove_outside fun a ha => not_links_of_not_header (hx a (hl.extend.isNode_rest ha))).trans ?_
  exact setSize_outside (hx _ (hl.mem b (by simp)))

/-- The loop of `coalesce_dll` computes the list. -/
theorem coalesceLoop_listed (hl : Listed L N m (U ++ b :: V)) (hf : V.length < fuel) :
    ∃ m', coalesceLoop L fuel m b.addr ((V.map Blk.addr).headD L.freeList) = some m' ∧
      Listed L N m' (U ++ coalesceFrom b V) ∧ SameOutside N m m' := by
  induction V generalizing U b m fuel with
  | nil =>
      obtain ⟨fuel, rfl⟩ := Nat.exists_eq_succ_of_ne_zero (Nat.ne_zero_of_lt hf)
      exact ⟨m, if_pos rfl, hl, fun _ _ => rfl⟩
  | cons c V ih =>
      obtain ⟨fuel, rfl⟩ := Nat.exists_eq_succ_of_ne_zero (Nat.ne_zero_of_lt hf)
      have hf' : V.length < fuel := Nat.lt_of_succ_lt_succ hf
      have hne : c.addr ≠ L.freeList := by
        intro heq
        refine (List.nodup_cons.mp hl.ring.nodup).1 (List.mem_map.mpr ⟨c, by simp, heq⟩)
      have hb := hl.sizes b (by simp)
      have hc := hl.sizes c (by simp)
      have hend : scaledEnd m b.addr = b.scaledEnd := by rw [scaledEnd, Blk.scaledEnd, hb]
      have hring := hl.ring
      rw [coalesceLoop, List.map_cons, List.headD_cons, if_neg hne, hend, coalesceFrom]
      by_cases hpre : b.Precedes c
      · rw [if_pos hpre, if_pos (show b.addr ≠ 0 ∧ b.scaledEnd = c.addr from hpre), hb, hc]
        -- The links of the block that is taken off stay as they are.
        have hnext : nextOf (dllRemove (setSize m b.addr (b.merge c).size) c.addr) c.addr =
            (V.map Blk.addr).headD L.freeList := by
          rw [(hl.extend.remove_spec (hl.extend.mem c (by simp))).1]
          have hring' := hl.extend.ring
          rw [List.map_append, List.map_cons] at hring'
          rw [← hring'.next_mem]
          exact ite_eq_left_iff.mpr fun _ => rfl
        obtain ⟨m', hloop, hlisted, hout⟩ := ih hl.merge hf'
        refine ⟨m', ?_, hlisted, fun x hx => (hout x hx).trans (hl.merge_outside x hx)⟩
        rw [← hnext] at hloop
        exact hloop
      · rw [if_neg hpre, if_neg (show ¬ (b.addr ≠ 0 ∧ b.scaledEnd = c.addr) from hpre)]
        have hsplit : U ++ b :: c :: V = (U ++ [b]) ++ c :: V := by simp
        rw [hsplit] at hl hring
        rw [List.map_append, List.map_cons] at hring
        rw [hring.next_mem]
        obtain ⟨m', hloop, hlisted, hout⟩ := ih hl hf'
        rw [List.append_assoc] at hlisted
        exact ⟨m', hloop, hlisted, hout⟩

theorem coalesceDll_listed (hl : Listed L N m free) (hf : free.length < fuel) :
    ∃ m', coalesceDll L fuel m = some m' ∧ Listed L N m' (coalesced free) ∧ SameOutside N m m' := by
  obtain ⟨fuel, rfl⟩ := Nat.exists_eq_succ_of_ne_zero (Nat.ne_zero_of_lt hf)
  rw [coalesceDll, hl.ring.next_head]
  cases free with
  | nil => exact ⟨m, if_pos rfl, hl, fun _ _ => rfl⟩
  | cons b V =>
      have hne : b.addr ≠ L.freeList := by
        intro heq
        exact (List.nodup_cons.mp hl.ring.nodup).1 (List.mem_map.mpr ⟨b, by simp, heq⟩)
      have hring := hl.ring
      rw [List.map_cons, List.headD_cons, coalesceLoop, if_neg hne, if_neg (fun h => h.1 rfl),
        Ring.next_mem (U := []) hring]
      exact coalesceLoop_listed (U := []) hl (Nat.lt_of_succ_lt_succ hf)

end Refine

/-! ### Freeing -/

section Free
variable {L : Layout} {h : Kheap} {m : Mem} {free held : List Blk} {b : Blk} {fuel : Nat}

theorem linkBlocks_perm (b : Blk) (free : List Blk) : (linkBlocks b free).Perm (b :: free) := by
  unfold linkBlocks
  split
  · refine List.perm_middle.trans ?_
    rw [List.takeWhile_append_dropWhile]
  · exact .refl _

/-- `kheap_free` of a block that does not go back to the frame allocator. -/
theorem Rep.free_listed (hr : Rep L h.mem free (b :: held)) (hl : h.locked = false)
    (hret : returnsFrames h.mem b.addr = false) (hf : free.length + 2 ≤ fuel) :
    ∃ h', kheapFree L fuel h (b.addr + headerSize) = some h' ∧
      Listed L (IsNode L (linkBlocks b free ++ held)) h'.mem (coalesced (linkBlocks b free)) := by
  have hbound := hr.placed.bound (b := b) (by simp)
  have haddr : sub64 (b.addr + headerSize) headerSize = b.addr := sub64_header (by omega)
  have hfind : findBlock L h.mem (fun a => b.addr < a) fuel (nextOf h.mem L.freeList) =
      some ((free.map Blk.addr).find? fun a => b.addr < a) := by
    rw [hr.ring.next_head]
    refine findBlock_total hr.ring _ [] _ rfl ?_
    rw [List.length_map]
    omega
  obtain ⟨U, V, hlist, hlink, hrep⟩ := hr.linkFree hfind
  rw [← hlink] at hrep
  have hlen : (linkBlocks b free).length < fuel := by
    rw [(linkBlocks_perm b free).length_eq, List.length_cons]
    omega
  obtain ⟨m', hm, hlisted, -⟩ := coalesceDll_listed hrep.listed hlen
  refine ⟨{ h with mem := m' }, ?_, hlisted⟩
  unfold kheapFree
  simp only [haddr, hl, hret, hfind, hm]
  rfl

/-- A list of blocks is what memory has at its addresses. -/
theorem blocks_of_sizes (hsizes : ∀ c ∈ free, blockSize m c.addr = c.size) :
    free = (free.map Blk.addr).map fun a => ⟨a, blockSize m a⟩ := by
  have hmap : free.map ((fun a => (⟨a, blockSize m a⟩ : Blk)) ∘ Blk.addr) = free.map id := by
    apply List.map_congr_left
    intro c hc
    change (⟨c.addr, blockSize m c.addr⟩ : Blk) = c
    rw [hsizes c hc]
  rw [List.map_map, hmap, List.map_id]

end Free

def Sorted (free : List Blk) : Prop := free.Pairwise fun c d => c.addr < d.addr

/-- The extent of one block ends where that of another begins. -/
def Touching (bs : List Blk) : Prop := ∃ c ∈ bs, ∃ d ∈ bs, c.extent.hi = d.addr

/-- The free list is sorted, has the bytes of `free` and of the block, and no two of its
blocks touch. -/
def FreedInto (L : Layout) (m : Mem) (free : List Blk) (b : Blk) : Prop :=
  ∃ free', FreeListIs L m free' ∧ Sorted free' ∧
    (∀ x, Covers free' x ↔ Covers free x ∨ b.extent.Has x) ∧ ¬ Touching free'

/-- No block lies between `c` and `d`. -/
def NextAbove (bs : List Blk) (c d : Blk) : Prop :=
  c.addr < d.addr ∧ ∀ e ∈ bs, e.addr ≤ c.addr ∨ d.addr ≤ e.addr

/-- The block is not above all others, touches none, and the next block above one is
never where `coalesce_dll` expects its neighbour. -/
structure FreesWell (free : List Blk) (b : Blk) : Prop where
  below : free = [] ∨ ∃ c ∈ free, b.addr < c.addr
  apart : ¬ Touching (b :: free)
  idle : ∀ c ∈ b :: free, ∀ d ∈ b :: free, NextAbove (b :: free) c d → ¬ c.Precedes d

section Coalesce
variable {L : Layout} {h : Kheap} {m : Mem} {free free' held cs l U V : List Blk} {b c d e : Blk}

theorem Listed.freeListIs {N : Nat → Prop} (hl : Listed L N m free) : FreeListIs L m free := ⟨hl.ring, hl.sizes⟩

theorem FreeListIs.unique (h : FreeListIs L m free) (h' : FreeListIs L m free') : free = free' := by
  rw [blocks_of_sizes h.sizes, blocks_of_sizes h'.sizes, h.ring.unique h'.ring]

/-- Nothing is merged where no block looks like a neighbour. -/
theorem coalesceFrom_idle (hi : (b :: cs).IsChain fun c d => ¬ c.Precedes d) : coalesceFrom b cs = b :: cs := by
  induction cs generalizing b with
  | nil => rfl
  | cons c cs ih =>
      rw [List.isChain_cons_cons] at hi
      rw [coalesceFrom, if_neg hi.1, ih hi.2]

theorem coalesced_idle (hi : l.IsChain fun c d => ¬ c.Precedes d) : coalesced l = l := by
  cases l with
  | nil => rfl
  | cons b cs => exact coalesceFrom_idle hi

/-- The bytes of all blocks together. -/
def total (bs : List Blk) : Nat := (bs.map fun b => headerSize + b.size).sum

theorem total_cons (b : Blk) (bs : List Blk) : total (b :: bs) = headerSize + b.size + total bs := by
  rw [total, List.map_cons, List.sum_cons, total]

theorem Placed.total_le (hp : Placed L l) : total l ≤ 2 ^ 64 := by
  have hspans : (l.map Blk.extent).Pairwise Span.Apart := List.pairwise_map.mpr hp.apart
  have hin : ∀ s ∈ l.map Blk.extent, s.Within ⟨0, 2 ^ 64⟩ := by
    intro s hs
    obtain ⟨b, hb, rfl⟩ := List.mem_map.mp hs
    have hbound := hp.bound hb
    refine ⟨Nat.zero_le _, ?_⟩
    simp only [Blk.extent, Span.hi]
    omega
  have hsum := Span.sum_len_le hspans hin
  rw [List.map_map] at hsum
  exact hsum

theorem merge_size (ht : total (b :: c :: cs) ≤ 2 ^ 64) : (b.merge c).size = b.size + (c.size + headerSize) := by
  rw [total_cons, total_cons] at ht
  apply Nat.mod_eq_of_lt
  simp only [headerSize] at ht ⊢
  omega

theorem total_merge (ht : total (b :: c :: cs) ≤ 2 ^ 64) : total (b.merge c :: cs) = total (b :: c :: cs) := by
  rw [total_cons, merge_size ht, total_cons, total_cons]
  omega

/-- The block that others are merged into stays where it is, and only grows. -/
theorem coalesceFrom_grows (ht : total (b :: cs) ≤ 2 ^ 64) :
    ∃ e ∈ coalesceFrom b cs, e.addr = b.addr ∧ b.size ≤ e.size := by
  induction cs generalizing b with
  | nil => exact ⟨b, List.mem_cons_self, rfl, le_refl _⟩
  | cons c cs ih =>
      rw [coalesceFrom]
      split
      · obtain ⟨e, he, haddr, hsize⟩ := ih (b := b.merge c) ((total_merge ht).trans_le ht)
        rw [merge_size ht] at hsize
        exact ⟨e, he, haddr, by omega⟩
      · exact ⟨b, List.mem_cons_self, rfl, le_refl _⟩

/-- Where a block looks like a neighbour, some block ends up longer than it was. -/
theorem coalesceFrom_merges (hno : ¬ (b :: cs).IsChain fun c d => ¬ c.Precedes d) (ht : total (b :: cs) ≤ 2 ^ 64) :
    ∃ U c d V, b :: cs = U ++ c :: d :: V ∧ c.Precedes d ∧
      ∃ e ∈ coalesceFrom b cs, e.addr = c.addr ∧ c.size + headerSize ≤ e.size := by
  induction cs generalizing b with
  | nil => exact absurd (.singleton b) hno
  | cons c cs ih =>
      rw [List.isChain_cons_cons] at hno
      rw [coalesceFrom]
      by_cases hpre : b.Precedes c
      · rw [if_pos hpre]
        obtain ⟨e, he, haddr, hsize⟩ := coalesceFrom_grows (b := b.merge c) ((total_merge ht).trans_le ht)
        rw [merge_size ht] at hsize
        exact ⟨[], b, c, cs, rfl, hpre, e, he, haddr, by omega⟩
      · rw [if_neg hpre]
        have hrest : total (c :: cs) ≤ 2 ^ 64 := by
          rw [total_cons] at ht
          omega
        obtain ⟨U, c', d, V, hlist, hpre', e, he, hgrown⟩ := ih (fun h => hno ⟨hpre, h⟩) hrest
        exact ⟨b :: U, c', d, V, by rw [hlist]; rfl, hpre', e, List.mem_cons_of_mem b he, hgrown⟩

theorem coalesced_merges (hno : ¬ l.IsChain fun c d => ¬ c.Precedes d) (ht : total l ≤ 2 ^ 64) :
    ∃ U c d V, l = U ++ c :: d :: V ∧ c.Precedes d ∧
      ∃ e ∈ coalesced l, e.addr = c.addr ∧ c.size + headerSize ≤ e.size := by
  cases l with
  | nil => exact absurd .nil hno
  | cons b cs => exact coalesceFrom_merges hno ht

/-! ### Order -/

/-- On a sorted list no block lies between two that follow each other. -/
theorem Sorted.follows (hs : Sorted (U ++ c :: d :: V)) (he : e ∈ U ++ c :: d :: V) (hlt : c.addr < e.addr) :
    c.addr < d.addr ∧ d.addr ≤ e.addr := by
  obtain ⟨-, htail, hfront⟩ := List.pairwise_append.mp hs
  obtain ⟨hc, hd⟩ := List.pairwise_cons.mp htail
  refine ⟨hc d List.mem_cons_self, ?_⟩
  rcases List.mem_append.mp he with he | he
  · have := hfront e he c List.mem_cons_self
    omega
  · rcases List.mem_cons.mp he with rfl | he
    · omega
    · rcases List.mem_cons.mp he with rfl | he
      · exact le_refl _
      · exact ((List.pairwise_cons.mp hd).1 e he).le

theorem Sorted.eq_of_addr (hs : Sorted l) (hc : c ∈ l) (hd : d ∈ l) (heq : c.addr = d.addr) : c = d := by
  have hnd : (l.map Blk.addr).Nodup := List.pairwise_map.mpr (hs.imp fun hlt => hlt.ne)
  exact List.inj_on_of_nodup_map hnd hc hd heq

/-- On a sorted list the blocks that follow each other are those with none between them. -/
theorem Sorted.isChain_iff {R : Blk → Blk → Prop} (hs : Sorted l) :
    l.IsChain R ↔ ∀ c ∈ l, ∀ d ∈ l, NextAbove l c d → R c d := by
  rw [List.isChain_iff_forall_rel_of_append_cons_cons]
  constructor
  · rintro hchain c hc d hd ⟨hlt, hbetween⟩
    obtain ⟨U, W, rfl⟩ := List.append_of_mem hc
    cases W with
    | nil =>
        obtain ⟨-, -, hfront⟩ := List.pairwise_append.mp hs
        rcases List.mem_append.mp hd with hd | hd
        · have := hfront d hd c List.mem_cons_self
          omega
        · rw [List.mem_singleton] at hd
          rw [hd] at hlt
          exact absurd hlt (lt_irrefl _)
    | cons e V =>
        have he : e ∈ U ++ c :: e :: V := by simp
        obtain ⟨hce, hed⟩ := hs.follows hd hlt
        have hde := (hbetween e he).resolve_left (Nat.not_le.mpr hce)
        obtain rfl := hs.eq_of_addr he hd (Nat.le_antisymm hed hde)
        exact hchain rfl
  · rintro hnext c d U V rfl
    refine hnext c (by simp) d (by simp) ⟨?_, fun e he => ?_⟩
    · exact (List.pairwise_cons.mp (List.pairwise_append.mp hs).2.1).1 d List.mem_cons_self
    · rcases Nat.lt_or_ge c.addr e.addr with hlt | hge
      · exact .inr (hs.follows he hlt).2
      · exact .inl hge

/-- A block above others is linked in between them in order. -/
theorem Sorted.linkBlocks (hs : Sorted free) (hne : ∀ c ∈ free, c.addr ≠ b.addr) (hex : ∃ c ∈ free, b.addr < c.addr) :
    Sorted (linkBlocks b free) := by
  obtain ⟨U, c, V, rfl, hU, hlt⟩ := exists_first_block hex
  rw [linkBlocks_between hU hlt]
  obtain ⟨hsU, hsV, hUV⟩ := List.pairwise_append.mp hs
  refine List.pairwise_append.mpr ⟨hsU, List.pairwise_cons.mpr ⟨?_, hsV⟩, ?_⟩
  · refine List.forall_mem_cons.mpr ⟨hlt, fun d hd => ?_⟩
    exact hlt.trans ((List.pairwise_cons.mp hsV).1 d hd)
  · intro d hd
    refine List.forall_mem_cons.mpr ⟨?_, hUV d hd⟩
    have hnot := hU d hd
    have hdb := hne d (by simp [hd])
    omega

/-- The same for the list with the freed block on it, wherever it is linked in. -/
theorem linkBlocks_follows (hs : Sorted free) (hne : ∀ c ∈ free, c.addr ≠ b.addr)
    (hlist : linkBlocks b free = U ++ c :: d :: V) (he : e ∈ linkBlocks b free) (hlt : c.addr < e.addr) :
    c.addr < d.addr ∧ d.addr ≤ e.addr := by
  by_cases hex : ∃ c ∈ free, b.addr < c.addr
  · have hsorted := hs.linkBlocks hne hex
    rw [hlist] at hsorted he
    exact hsorted.follows he hlt
  · have hno : ∀ c ∈ free, ¬ b.addr < c.addr := fun c hc h => hex ⟨c, hc, h⟩
    rw [linkBlocks_head hno] at hlist he
    cases U with
    | nil =>
        obtain ⟨rfl, -⟩ := List.cons.inj hlist
        rcases List.mem_cons.mp he with rfl | he
        · omega
        · exact absurd hlt (hno e he)
    | cons a U =>
        obtain ⟨rfl, rfl⟩ := List.cons.inj hlist
        rcases List.mem_cons.mp he with rfl | he
        · have hcd : c.addr < d.addr :=
            (List.pairwise_cons.mp (List.pairwise_append.mp hs).2.1).1 d List.mem_cons_self
          exact ⟨hcd, Nat.not_lt.mp (hno d (by simp))⟩
        · exact hs.follows he hlt

theorem scaled_ne {a k : Nat} (hk : 0 < k) (h : a + k < 2 ^ 64) : (a + sizeofAllocNode * k) % 2 ^ 64 ≠ a + k := by
  have hle : a + k ≤ a + sizeofAllocNode * k := by
    rw [sizeofAllocNode]
    omega
  have hdiff : a + sizeofAllocNode * k - (a + k) = 31 * k := by
    rw [sizeofAllocNode]
    omega
  have hodd : Nat.Coprime (2 ^ 64) 31 := by
    apply Nat.Coprime.pow_left
    decide
  have hnot : ¬ 2 ^ 64 ≤ k := by omega
  intro heq
  have hmod : a + k ≡ a + sizeofAllocNode * k [MOD 2 ^ 64] := by
    rw [Nat.ModEq, heq, Nat.mod_eq_of_lt h]
  have hdvd := (Nat.modEq_iff_dvd' hle).mp hmod
  rw [hdiff] at hdvd
  exact hnot (Nat.le_of_dvd hk (hodd.dvd_of_dvd_mul_left hdvd))

/-- Behind a block that is taken for the neighbour of the next one, there is a byte that
is not free. -/
theorem Blk.Precedes.gap (hpre : c.Precedes d) (hp : Placed L l) (hc : c ∈ l) (hd : d ∈ l)
    (hfollows : ∀ e ∈ l, c.addr < e.addr → c.addr < d.addr ∧ d.addr ≤ e.addr) : ¬ Covers l c.extent.hi := by
  rintro ⟨e, he, hlo, hhi⟩
  have hapart : ∀ {a}, a ∈ l → a ≠ c → c.extent.Apart a.extent :=
    fun ha hne => hp.apart.forall hc ha hne.symm
  simp only [Blk.extent, Span.hi] at hlo hhi
  have hec : e ≠ c := by
    rintro rfl
    omega
  have hap := hapart he hec
  simp only [Span.Apart, Span.hi, Blk.extent] at hap
  have hpos : 0 < headerSize := by decide
  obtain ⟨hcd, hde⟩ := hfollows e he (by omega)
  have hdc : d ≠ c := by
    rintro rfl
    omega
  have hap' := hapart hd hdc
  simp only [Span.Apart, Span.hi, Blk.extent] at hap'
  -- So the next block begins right behind it, not thirty-two times as far.
  have hnext : d.addr = c.addr + (c.size + headerSize) := by omega
  have hbound := hp.bound hd
  have hend := hpre.2
  rw [hnext] at hend
  exact scaled_ne (by omega) (by omega) hend

theorem covers_link {x : Nat} : Covers (linkBlocks b free) x ↔ Covers free x ∨ b.extent.Has x := by
  have hmem : ∀ c, c ∈ linkBlocks b free ↔ c = b ∨ c ∈ free :=
    fun c => (linkBlocks_perm b free).mem_iff.trans List.mem_cons
  constructor
  · rintro ⟨c, hc, hx⟩
    rcases (hmem c).mp hc with rfl | hc
    · exact .inr hx
    · exact .inl ⟨c, hc, hx⟩
  · rintro (⟨c, hc, hx⟩ | hx)
    · exact ⟨c, (hmem c).mpr (.inr hc), hx⟩
    · exact ⟨b, (hmem b).mpr (.inl rfl), hx⟩

theorem touching_link : Touching (linkBlocks b free) ↔ Touching (b :: free) := by
  have hmem := fun c => (linkBlocks_perm b free).mem_iff (a := c)
  simp only [Touching, hmem]

theorem Rep.placed_link (hr : Rep L m free (b :: held)) : Placed L (linkBlocks b free) := by
  have hperm : (free ++ b :: held).Perm (linkBlocks b free ++ held) :=
    List.perm_middle.trans ((linkBlocks_perm b free).symm.append_right held)
  have hp := hr.placed.perm hperm
  exact ⟨(List.pairwise_append.mp hp.apart).1, fun c hc => hp.window c (List.mem_append_left _ hc)⟩

theorem Rep.addr_ne (hr : Rep L m free (b :: held)) (hc : c ∈ free) : c.addr ≠ b.addr := by
  intro heq
  exact hr.placed.off_list (List.mem_cons_of_mem _ (List.mem_map.mpr ⟨c, hc, heq⟩))

/-- A merge makes bytes free that were not. -/
theorem Rep.idle_of_covers (hr : Rep L m free (b :: held)) (hs : Sorted free)
    (hcov : ∀ x, Covers (coalesced (linkBlocks b free)) x → Covers (linkBlocks b free) x) :
    (linkBlocks b free).IsChain fun c d => ¬ c.Precedes d := by
  by_contra hno
  have hp := hr.placed_link
  obtain ⟨U, c, d, V, hlist, hpre, e, he, haddr, hsize⟩ := coalesced_merges hno hp.total_le
  have hc : c ∈ linkBlocks b free := by simp [hlist]
  have hd : d ∈ linkBlocks b free := by simp [hlist]
  have hgap : ¬ Covers (linkBlocks b free) c.extent.hi :=
    hpre.gap hp hc hd fun _ ha hlt => linkBlocks_follows hs (fun _ => hr.addr_ne) hlist ha hlt
  have hpos : 0 < headerSize := by decide
  refine hgap (hcov _ ⟨e, he, ?_⟩)
  simp only [Span.Has, Span.hi, Blk.extent]
  omega

theorem idle_link (hs : Sorted (linkBlocks b free)) : (linkBlocks b free).IsChain (fun c d => ¬ c.Precedes d) ↔
    ∀ c ∈ b :: free, ∀ d ∈ b :: free, NextAbove (b :: free) c d → ¬ c.Precedes d := by
  have hmem := fun c => (linkBlocks_perm b free).mem_iff (a := c)
  rw [hs.isChain_iff]
  simp only [NextAbove, hmem]

/-- What memory holds after the block was linked in and the list coalesced. -/
theorem Rep.freedInto_iff (hr : Rep L h.mem free (b :: held)) (hs : Sorted free)
    (hlist : FreeListIs L m (coalesced (linkBlocks b free))) : FreedInto L m free b ↔ FreesWell free b := by
  constructor
  · rintro ⟨free', hfree', hsorted, hcov, hapart⟩
    obtain rfl := hlist.unique hfree'
    have hidle := hr.idle_of_covers hs fun x hx => covers_link.mpr ((hcov x).mp hx)
    rw [coalesced_idle hidle] at hsorted hapart
    refine ⟨?_, fun h => hapart (touching_link.mpr h), (idle_link hsorted).mp hidle⟩
    by_contra hno
    obtain ⟨hne, hno⟩ := not_or.mp hno
    have hno : ∀ c ∈ free, ¬ b.addr < c.addr := fun c hc hlt => hno ⟨c, hc, hlt⟩
    rw [linkBlocks_head hno] at hsorted
    obtain ⟨c, hc⟩ := List.exists_mem_of_ne_nil free hne
    exact hno c hc ((List.pairwise_cons.mp hsorted).1 c hc)
  · intro hw
    have hsorted : Sorted (linkBlocks b free) := by
      rcases hw.below with rfl | hex
      · exact List.pairwise_singleton _ b
      · exact hs.linkBlocks (fun _ => hr.addr_ne) hex
    rw [coalesced_idle ((idle_link hsorted).mpr hw.idle)] at hlist
    exact ⟨linkBlocks b free, hlist, hsorted, fun _ => covers_link, fun h => hw.apart (touching_link.mp h)⟩

end Coalesce

section Result
variable {L : Layout} {h : Kheap} {free held : List Blk} {b : Blk} {fuel : Nat}

/-- `kheap_free` of a block that does not go back to the frame allocator returns, and it
leaves a sorted list of exactly the free bytes with no two blocks that touch where nothing
was to be coalesced in the first place: the block is not above all others, touches none,
and no block is followed by one that `coalesce_dll` merges by mistake. -/
theorem kheap_free_coalesces_iff (hr : Rep L h.mem free (b :: held)) (hs : Sorted free) (hl : h.locked = false)
    (hret : returnsFrames h.mem b.addr = false) (hf : free.length + 2 ≤ fuel) :
    ∃ h', kheapFree L fuel h (b.addr + headerSize) = some h' ∧ (FreedInto L h'.mem free b ↔ FreesWell free b) := by
  obtain ⟨h', hfree, hlisted⟩ := hr.free_listed hl hret hf
  exact ⟨h', hfree, hr.freedInto_iff hs hlisted.freeListIs⟩

end Result

section Small

theorem smallHeap_two : (smallAlloc (smallAlloc smallHeap 8).2 8).2.locked = false ∧
    Rep smallLayout (smallAlloc (smallAlloc smallHeap 8).2 8).2.mem [⟨0x11040, 4008⟩] [⟨0x11000, 8⟩, ⟨0x11020, 8⟩] := by
  obtain ⟨hl, hi⟩ := smallHeap_one
  obtain ⟨-, hl', hi'⟩ := smallAlloc_inv hi hl 8 (by decide) (by decide)
  exact ⟨hl', hi'.rep.perm (.swap ..)⟩

theorem eight_bytes_freed : ∃ h', kheapFree smallLayout 8 (smallAlloc (smallAlloc smallHeap 8).2 8).2 0x11018 = some h' ∧
    FreedInto smallLayout h'.mem [⟨0x11040, 4008⟩] ⟨0x11000, 8⟩ := by
  obtain ⟨hl, hr⟩ := smallHeap_two
  obtain ⟨h', hfree, hiff⟩ :=
    kheap_free_coalesces_iff hr (List.pairwise_singleton _ _) hl (by decide +kernel) (show _ ≤ 8 by decide)
  refine ⟨h', hfree, hiff.mpr ⟨.inr ⟨_, List.mem_cons_self, by decide⟩, ?_, ?_⟩⟩
  · unfold Touching
    decide
  · unfold NextAbove
    decide

/-- The first block of a frame is freed in front of the rest of it, and stays apart. -/
theorem freed_neighbour_not_merged : ∃ h', kheapFree smallLayout 8 (smallAlloc smallHeap 8).2 0x11018 = some h' ∧
    Rep smallLayout (smallAlloc smallHeap 8).2.mem [⟨0x11020, 4040⟩] [⟨0x11000, 8⟩] ∧
    ¬ FreedInto smallLayout h'.mem [⟨0x11020, 4040⟩] ⟨0x11000, 8⟩ := by
  obtain ⟨hl, hi⟩ := smallHeap_one
  have hr := hi.rep
  obtain ⟨h', hfree, hlisted⟩ := hr.free_listed hl (by decide +kernel) (show _ ≤ 8 by decide)
  refine ⟨h', hfree, hr, ?_⟩
  rw [hr.freedInto_iff (List.pairwise_singleton _ _) hlisted.freeListIs]
  rintro ⟨-, hapart, -⟩
  exact hapart ⟨⟨0x11000, 8⟩, by simp, ⟨0x11020, 4040⟩, by simp, rfl⟩

end Small

end Flan.Memory
