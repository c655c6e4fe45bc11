import Cxp.LinkedChain
import Cxp.RunInduction
import Mathlib.Algebra.BigOperators.Fin
import Mathlib.Algebra.Order.BigOperators.Group.Finset
import Mathlib.Tactic.Linarith

/-!
# The block allocator (`memory.c`)

Brinch Hansen's allocator keeps one free list per size class, threaded
through the free blocks, and one large tail from which blocks are carved when
a list is empty.  `memory_init` sets `taillen` to the size of the arena, and
`allocate_mem` compares it with the block length; nothing ever lowers it.

The machine of this file runs any sequence of `allocate_mem` and
`release_mem` calls whose callers release only blocks they hold.  Blocks
handed out or free are always pairwise disjoint (`Layout`), but they lie
inside the arena only as long as the carving stops by itself:
`arena_safe_iff_demand_fits` says exactly when that is.
-/

namespace Cxp

open LinkedChain Run

/-- Length of block for each index, in bytes; zero ends the table. -/
def procmemlen : List Nat :=
  [18, 32, 48, 96, 128, 192, 256, 384, 512, 768, 1024, 1536,
    2048, 3072, 4096, 6144, 8192, 10240, 12288, 16384, 24576, 0]

/-- The size classes: the indices before the terminating zero, which are
those that `find_mem_index` returns and `TMO_INDEX` among them. -/
abbrev MemIndex := Fin 21

/-- Memory index of timeout descriptors. -/
def TMO_INDEX : MemIndex := 0

/-- The length of the blocks of one index. -/
def blockLen (index : MemIndex) : Nat := procmemlen.getD index.val 0

theorem blockLen_pos (index : MemIndex) : 0 < blockLen index := by
  revert index
  decide

/-- The state of the memory module; addresses count bytes.  `link` is the `next` field of the
`ChainedBlock` at an address; it is meaningful while the block is free. -/
structure Memory where
  procmemlist : MemIndex → Option Nat
  link : Nat → Option Nat
  taillen : Nat
  tail : Nat

/-- Allocate a block of the length implied by the index; `none` is the stop
in `plotz("Out of memory")`.  The tail moves on, `taillen` does not. -/
def allocate_mem (m : Memory) (index : MemIndex) : Option (Nat × Memory) :=
  match m.procmemlist index with
  | some block =>
      some (block, { m with
        procmemlist := Function.update m.procmemlist index (m.link block) })
  | none =>
      if blockLen index ≤ m.taillen then
        some (m.tail, { m with tail := m.tail + blockLen index })
      else none

/-- Put a released block at the head of the list for its size. -/
def release_mem (m : Memory) (index : MemIndex) (addr : Nat) : Memory :=
  { m with
    link := Function.update m.link addr (m.procmemlist index)
    procmemlist := Function.update m.procmemlist index (some addr) }

/-- The memory module over the region `[base, base + total)` that
`acquire_memory` returned. -/
def memory_init (base total : Nat) : Memory where
  procmemlist := fun _ => none
  link := fun _ => none
  taillen := total
  tail := base

/-- A block, by its index and its address. -/
abbrev Block := MemIndex × Nat

instance : LawfulBEq Block := inferInstance

/-- The address just past a block. -/
def Block.stop (b : Block) : Nat := b.2 + blockLen b.1

/-- Two blocks have no byte in common. -/
def Apart (b c : Block) : Prop := b.stop ≤ c.2 ∨ c.stop ≤ b.2

theorem Apart.symm {b c : Block} (h : Apart b c) : Apart c b := Or.symm h

/-- The allocator and the blocks its callers hold. -/
structure Arena where
  mem : Memory
  held : List Block

/-- Calls of the allocator. -/
inductive MemCall
  | allocate (index : MemIndex)
  | release (index : MemIndex) (addr : Nat)
  deriving DecidableEq

/-- One call.  A caller releases only a block it holds, with the index it
was allocated with. -/
def Arena.step (w : Arena) : MemCall → Option Arena
  | .allocate index =>
      (allocate_mem w.mem index).map fun r => ⟨r.2, (index, r.1) :: w.held⟩
  | .release index addr =>
      if (index, addr) ∈ w.held then
        some ⟨release_mem w.mem index addr, w.held.erase (index, addr)⟩
      else none

/-- The allocator just after `memory_init`. -/
def Arena.start (base total : Nat) : Arena := ⟨memory_init base total, []⟩

/-- The held blocks and the blocks on the free lists are pairwise disjoint. -/
structure BlocksApart (held : List Block) (free : MemIndex → List Nat) :
    Prop where
  held_apart : held.Pairwise Apart
  free_apart : ∀ i, (free i).Pairwise fun a b => Apart (i, a) (i, b)
  lists_apart : ∀ i j, i ≠ j → ∀ a ∈ free i, ∀ b ∈ free j, Apart (i, a) (j, b)
  held_free : ∀ b ∈ held, ∀ i, ∀ a ∈ free i, Apart b (i, a)

/-- What the callers rely on: every held block lies within the arena, and
held and free blocks are pairwise disjoint. -/
def ArenaSafe (base total : Nat) (w : Arena) : Prop :=
  (∀ b ∈ w.held, base ≤ b.2 ∧ b.stop ≤ base + total) ∧
  ∃ free : MemIndex → List Nat,
    (∀ i, Chain w.mem.link (w.mem.procmemlist i) (free i)) ∧
    BlocksApart w.held free

section Layout

variable {base total : Nat} {w : Arena} {free : MemIndex → List Nat}

/-- Blocks of distinct positions: no block is empty. -/
theorem Apart.ne {i j : MemIndex} {a b : Nat} (h : Apart (i, a) (j, b)) :
    a ≠ b := by
  have hi := blockLen_pos i
  have hj := blockLen_pos j
  rintro rfl
  simp only [Apart, Block.stop] at h
  omega

/-- What the allocator keeps under any calls: the free lists are chains,
blocks are apart, and everything carved so far lies in `[base, tail)`. -/
structure Layout (base : Nat) (w : Arena) (free : MemIndex → List Nat) :
    Prop where
  chain : ∀ i, Chain w.mem.link (w.mem.procmemlist i) (free i)
  apart : BlocksApart w.held free
  held_in : ∀ b ∈ w.held, base ≤ b.2 ∧ b.stop ≤ w.mem.tail
  free_in : ∀ i, ∀ a ∈ free i, base ≤ a ∧ a + blockLen i ≤ w.mem.tail
  base_le : base ≤ w.mem.tail

theorem layout_start (base total : Nat) :
    Layout base (Arena.start base total) fun _ => [] where
  chain := fun _ => rfl
  apart := by constructor <;> simp [Arena.start]
  held_in := by simp [Arena.start]
  free_in := by simp
  base_le := Nat.le_refl base

/-- What one call can do: reuse the first free block of its list, carve a
block off the tail, or put a held block back. -/
theorem Arena.step_cases {c : MemCall} {t : Arena} (h : w.step c = some t) :
    (∃ i a, c = .allocate i ∧ w.mem.procmemlist i = some a ∧
      t = ⟨{ w.mem with procmemlist :=
              Function.update w.mem.procmemlist i (w.mem.link a) },
            (i, a) :: w.held⟩) ∨
    (∃ i, c = .allocate i ∧ w.mem.procmemlist i = none ∧
      t = ⟨{ w.mem with tail := w.mem.tail + blockLen i },
            (i, w.mem.tail) :: w.held⟩) ∨
    (∃ i a, c = .release i a ∧ (i, a) ∈ w.held ∧
      t = ⟨release_mem w.mem i a, w.held.erase (i, a)⟩) := by
  cases c with
  | allocate i =>
      simp only [Arena.step, allocate_mem] at h
      split at h
      next a ha =>
        exact Or.inl ⟨i, a, rfl, ha, by simpa using h.symm⟩
      next hn =>
        split at h
        · exact Or.inr (Or.inl ⟨i, rfl, hn, by simpa using h.symm⟩)
        · simp at h
  | release i a =>
      obtain ⟨hmem, h⟩ := Option.ite_none_right_eq_some.mp h
      exact Or.inr (Or.inr ⟨i, a, rfl, hmem, (Option.some.inj h).symm⟩)

/-- Taking the first free block of a list keeps the layout. -/
theorem Layout.reuse {i : MemIndex} {a : Nat} {rest : List Nat}
    (hL : Layout base w free) (hfree : free i = a :: rest) :
    Layout base
      ⟨{ w.mem with procmemlist :=
          Function.update w.mem.procmemlist i (w.mem.link a) },
        (i, a) :: w.held⟩
      (Function.update free i rest) := by
  have hsub : ∀ j, ∀ x ∈ Function.update free i rest j, x ∈ free j := by
    intro j x hx
    by_cases hj : j = i
    · subst hj
      rw [hfree]
      exact List.mem_cons_of_mem a (by simpa using hx)
    · simpa [hj] using hx
  have hrest : ∀ x ∈ rest, Apart (i, a) (i, x) := by
    have := hL.apart.free_apart i
    rw [hfree] at this
    exact (List.pairwise_cons.mp this).1
  have ha : a ∈ free i := by simp [hfree]
  refine ⟨fun j => ?_, ⟨?_, fun j => ?_, ?_, ?_⟩, ?_, ?_, hL.base_le⟩
  · by_cases hj : j = i
    · subst hj
      have := hL.chain j
      rw [hfree] at this
      simpa using this.2
    · simpa [hj] using hL.chain j
  · refine List.pairwise_cons.mpr ⟨fun b hb => ?_, hL.apart.held_apart⟩
    exact (hL.apart.held_free b hb i a ha).symm
  · by_cases hj : j = i
    · subst hj
      have := hL.apart.free_apart j
      rw [hfree] at this
      simpa using (List.pairwise_cons.mp this).2
    · simpa [hj] using hL.apart.free_apart j
  · intro j k hjk x hx y hy
    exact hL.apart.lists_apart j k hjk x (hsub j x hx) y (hsub k y hy)
  · intro b hb j x hx
    rcases List.mem_cons.mp hb with rfl | hb
    · by_cases hj : j = i
      · subst hj
        exact hrest x (by simpa using hx)
      · exact hL.apart.lists_apart i j (Ne.symm hj) a ha x (hsub j x hx)
    · exact hL.apart.held_free b hb j x (hsub j x hx)
  · intro b hb
    rcases List.mem_cons.mp hb with rfl | hb
    · exact hL.free_in i a ha
    · exact hL.held_in b hb
  · intro j x hx
    exact hL.free_in j x (hsub j x hx)

/-- Carving moves the tail past the new block, so it meets no other. -/
theorem Layout.carve (hL : Layout base w free) (i : MemIndex) :
    Layout base
      ⟨{ w.mem with tail := w.mem.tail + blockLen i },
        (i, w.mem.tail) :: w.held⟩ free := by
  refine ⟨hL.chain, ⟨?_, hL.apart.free_apart, hL.apart.lists_apart, ?_⟩,
    ?_, ?_, ?_⟩
  · refine List.pairwise_cons.mpr ⟨fun b hb => ?_, hL.apart.held_apart⟩
    exact Or.inr (hL.held_in b hb).2
  · intro b hb j x hx
    rcases List.mem_cons.mp hb with rfl | hb
    · exact Or.inr (hL.free_in j x hx).2
    · exact hL.apart.held_free b hb j x hx
  · intro b hb
    rcases List.mem_cons.mp hb with rfl | hb
    · exact ⟨hL.base_le, Nat.le_refl _⟩
    · exact ⟨(hL.held_in b hb).1, Nat.le_add_right_of_le (hL.held_in b hb).2⟩
  · intro j x hx
    exact ⟨(hL.free_in j x hx).1, Nat.le_add_right_of_le (hL.free_in j x hx).2⟩
  · exact Nat.le_add_right_of_le hL.base_le

/-- A released block joins the head of its list. -/
theorem Layout.release {i : MemIndex} {a : Nat}
    (hL : Layout base w free) (hheld : (i, a) ∈ w.held) :
    Layout base ⟨release_mem w.mem i a, w.held.erase (i, a)⟩
      (Function.update free i (a :: free i)) := by
  have hperm := List.perm_cons_erase hheld
  have hpair := (hperm.pairwise_iff Apart.symm).mp hL.apart.held_apart
  have herase : ∀ b ∈ w.held.erase (i, a), Apart (i, a) b :=
    (List.pairwise_cons.mp hpair).1
  have hmem : ∀ j, ∀ x ∈ Function.update free i (a :: free i) j,
      (j = i ∧ x = a) ∨ x ∈ free j := by
    intro j x hx
    by_cases hj : j = i
    · subst hj
      rcases List.mem_cons.mp (by simpa using hx) with rfl | hx
      · exact Or.inl ⟨rfl, rfl⟩
      · exact Or.inr hx
    · exact Or.inr (by simpa [hj] using hx)
  have hlink : ∀ j, Chain (Function.update w.mem.link a (w.mem.procmemlist i))
      (w.mem.procmemlist j) (free j) := by
    intro j
    refine (hL.chain j).update_of_notMem fun hx => ?_
    exact (hL.apart.held_free _ hheld j a hx).ne rfl
  refine ⟨fun j => ?_, ⟨?_, fun j => ?_, ?_, ?_⟩, ?_, ?_, hL.base_le⟩
  · by_cases hj : j = i
    · subst hj
      simpa [release_mem] using hlink j
    · simpa [release_mem, hj] using hlink j
  · exact (List.pairwise_cons.mp hpair).2
  · by_cases hj : j = i
    · subst hj
      simp only [Function.update_self]
      exact List.pairwise_cons.mpr
        ⟨fun x hx => hL.apart.held_free _ hheld j x hx, hL.apart.free_apart j⟩
    · simpa [hj] using hL.apart.free_apart j
  · intro j k hjk x hx y hy
    rcases hmem j x hx with ⟨hj, hxa⟩ | hxj <;>
      rcases hmem k y hy with ⟨hk, hya⟩ | hyk
    · exact absurd (hj.trans hk.symm) hjk
    · rw [hj, hxa]
      exact hL.apart.held_free _ hheld k y hyk
    · rw [hk, hya]
      exact (hL.apart.held_free _ hheld j x hxj).symm
    · exact hL.apart.lists_apart j k hjk x hxj y hyk
  · intro b hb j x hx
    rcases hmem j x hx with ⟨rfl, rfl⟩ | hx
    · exact (herase b hb).symm
    · exact hL.apart.held_free b (List.mem_of_mem_erase hb) j x hx
  · exact fun b hb => hL.held_in b (List.mem_of_mem_erase hb)
  · intro j x hx
    rcases hmem j x hx with ⟨rfl, rfl⟩ | hx
    · exact hL.held_in _ hheld
    · exact hL.free_in j x hx

/-- Any call keeps the blocks in the layout. -/
theorem Layout.step {c : MemCall} {t : Arena} (hL : Layout base w free)
    (h : w.step c = some t) : ∃ free', Layout base t free' := by
  obtain ⟨i, a, rfl, ha, rfl⟩ | ⟨i, rfl, hn, rfl⟩ | ⟨i, a, rfl, hheld, rfl⟩ :=
    Arena.step_cases h
  · have hc := hL.chain i
    cases hfree : free i with
    | nil =>
        rw [hfree, ha] at hc
        cases hc
    | cons b rest =>
        rw [hfree, ha] at hc
        obtain rfl : a = b := Option.some.inj hc.1
        exact ⟨_, hL.reuse hfree⟩
  · exact ⟨_, hL.carve i⟩
  · exact ⟨_, hL.release hheld⟩

/-- The call does not carve past the end of the arena. -/
def CarveFits (base total : Nat) (w : Arena) : MemCall → Prop
  | .allocate i =>
      w.mem.procmemlist i = none → w.mem.tail + blockLen i ≤ base + total
  | .release _ _ => True

/-- The layout of an arena that has not been overrun. -/
def Contained (base total : Nat) (w : Arena) : Prop :=
  (∃ free, Layout base w free) ∧ w.mem.tail ≤ base + total

theorem Contained.safe (h : Contained base total w) :
    ArenaSafe base total w := by
  obtain ⟨⟨free, hL⟩, htail⟩ := h
  refine ⟨fun b hb => ?_, free, hL.chain, hL.apart⟩
  exact ⟨(hL.held_in b hb).1, Nat.le_trans (hL.held_in b hb).2 htail⟩

theorem Contained.step {c : MemCall} {t : Arena}
    (h : Contained base total w) (hfits : CarveFits base total w c)
    (hstep : w.step c = some t) : Contained base total t := by
  obtain ⟨⟨free, hL⟩, htail⟩ := h
  refine ⟨hL.step hstep, ?_⟩
  obtain ⟨i, a, rfl, _, rfl⟩ | ⟨i, rfl, hn, rfl⟩ | ⟨i, a, rfl, _, rfl⟩ :=
    Arena.step_cases hstep
  · exact htail
  · exact hfits hn
  · exact htail

/-- A carving that does not fit hands out a block past the end. -/
theorem not_safe_of_not_fits {c : MemCall} {t : Arena}
    (hfits : ¬ CarveFits base total w c) (hstep : w.step c = some t) :
    ¬ ArenaSafe base total t := by
  obtain ⟨i, a, rfl, ha, rfl⟩ | ⟨i, rfl, hn, rfl⟩ | ⟨i, a, rfl, _, rfl⟩ :=
    Arena.step_cases hstep
  · exact absurd (fun hn : w.mem.procmemlist i = none => by simp [hn] at ha) hfits
  · intro hsafe
    exact hfits fun _ => (hsafe.1 _ List.mem_cons_self).2
  · exact absurd trivial hfits

/-- A run is safe throughout exactly when all its carvings fit. -/
theorem arena_safe_iff_carves_fit {calls : List MemCall} {t : Arena}
    (hrun : exec Arena.step (Arena.start base total) calls = some t) :
    Throughout Arena.step (ArenaSafe base total) (Arena.start base total) calls ↔
      Along Arena.step (CarveFits base total) (Arena.start base total) calls :=
  throughout_iff_along
    (I := Contained base total)
    (fun _ _ _ hI hC hstep => hI.step hC hstep)
    (fun _ hI => hI.safe)
    (fun _ _ _ _ hC hstep => not_safe_of_not_fits hC hstep)
    hrun ⟨⟨_, layout_start base total⟩, Nat.le_add_right base total⟩

end Layout

section Demand

/-- For each index, how many blocks are held now and how many have been held
at one time at most. -/
structure Usage where
  live : MemIndex → Nat
  peak : MemIndex → Nat

/-- The count after one more call. -/
def Usage.next (u : Usage) : MemCall → Usage
  | .allocate i =>
      { live := Function.update u.live i (u.live i + 1)
        peak := Function.update u.peak i (max (u.peak i) (u.live i + 1)) }
  | .release i _ => { u with live := Function.update u.live i (u.live i - 1) }

/-- The count before any call. -/
def Usage.zero : Usage := ⟨fun _ => 0, fun _ => 0⟩

/-- The bytes needed to hold the peak number of blocks of every index. -/
def Usage.demand (u : Usage) : Nat := ∑ i, blockLen i * u.peak i

/-- The demand of a sequence of calls. -/
def demand (calls : List MemCall) : Nat :=
  (calls.foldl Usage.next Usage.zero).demand

theorem Usage.demand_carve (u : Usage) (i : MemIndex)
    (h : u.live i = u.peak i) :
    (u.next (.allocate i)).demand = u.demand + blockLen i := by
  have hterm : ∀ j, blockLen j * (u.next (.allocate i)).peak j =
      blockLen j * u.peak j + if j = i then blockLen i else 0 := by
    intro j
    by_cases hj : j = i
    · subst hj
      simp [Usage.next, h, Nat.mul_succ]
    · simp [Usage.next, hj]
  simp [Usage.demand, hterm, Finset.sum_add_distrib]

theorem Usage.demand_reuse (u : Usage) (i : MemIndex)
    (h : u.live i < u.peak i) :
    (u.next (.allocate i)).demand = u.demand := by
  have hpeak : (u.next (.allocate i)).peak = u.peak := by
    simp [Usage.next, Nat.max_eq_left (Nat.succ_le_of_lt h)]
  simp [Usage.demand, hpeak]

theorem Usage.demand_le_next (u : Usage) (c : MemCall) :
    u.demand ≤ (u.next c).demand := by
  refine Finset.sum_le_sum fun j _ => Nat.mul_le_mul_left _ ?_
  cases c with
  | allocate i =>
      by_cases hj : j = i
      · subst hj
        simp [Usage.next]
      · simp [Usage.next, hj]
  | release i a => exact Nat.le_refl _

theorem Usage.demand_le_foldl (u : Usage) (calls : List MemCall) :
    u.demand ≤ (calls.foldl Usage.next u).demand := by
  induction calls generalizing u with
  | nil => exact Nat.le_refl _
  | cons c calls ih => exact Nat.le_trans (u.demand_le_next c) (ih (u.next c))

/-- How many blocks of one index are held. -/
def heldCount (held : List Block) (i : MemIndex) : Nat :=
  held.countP fun b => b.1 = i

/-- The arena agrees with the count: the free blocks of an index are those
of its peak that are not held, and the tail has moved by the demand. -/
structure Tracks (base : Nat) (w : Arena) (u : Usage)
    (free : MemIndex → List Nat) : Prop where
  layout : Layout base w free
  live_eq : ∀ i, heldCount w.held i = u.live i
  peak_eq : ∀ i, u.live i + (free i).length = u.peak i
  tail_eq : w.mem.tail = base + u.demand

theorem tracks_start (base total : Nat) :
    Tracks base (Arena.start base total) Usage.zero fun _ => [] where
  layout := layout_start base total
  live_eq := fun _ => rfl
  peak_eq := fun _ => rfl
  tail_eq := by simp [Arena.start, memory_init, Usage.demand, Usage.zero]

theorem heldCount_cons (held : List Block) (i j : MemIndex) (a : Nat) :
    heldCount ((i, a) :: held) j = heldCount held j + if i = j then 1 else 0 := by
  simp [heldCount, List.countP_cons]

theorem heldCount_erase {held : List Block} {i : MemIndex} {a : Nat}
    (h : (i, a) ∈ held) (j : MemIndex) :
    heldCount held j =
      heldCount (held.erase (i, a)) j + if i = j then 1 else 0 := by
  rw [← heldCount_cons _ i j a]
  exact (List.perm_cons_erase h).countP_eq _

variable {base total : Nat} {w : Arena} {u : Usage} {free : MemIndex → List Nat}

/-- One call, seen by the count: the arena stays tracked, and the call fits
exactly when the demand after it does. -/
theorem Tracks.step {c : MemCall} {t : Arena} (hT : Tracks base w u free)
    (hle : u.demand ≤ total) (hstep : w.step c = some t) :
    (∃ free', Tracks base t (u.next c) free') ∧
      (CarveFits base total w c ↔ (u.next c).demand ≤ total) := by
  obtain ⟨i, a, rfl, ha, rfl⟩ | ⟨i, rfl, hn, rfl⟩ | ⟨i, a, rfl, hheld, rfl⟩ :=
    Arena.step_cases hstep
  · have hc := hT.layout.chain i
    cases hfree : free i with
    | nil =>
        rw [hfree, ha] at hc
        cases hc
    | cons b rest =>
        rw [hfree, ha] at hc
        obtain rfl : a = b := Option.some.inj hc.1
        have hpeak := hT.peak_eq i
        simp only [hfree, List.length_cons] at hpeak
        have hdem := u.demand_reuse i (by omega)
        refine ⟨⟨_, hT.layout.reuse hfree, fun j => ?_, fun j => ?_, ?_⟩, ?_⟩
        · rw [heldCount_cons, hT.live_eq]
          by_cases hj : i = j
          · subst hj
            simp [Usage.next]
          · simp [Usage.next, hj, Ne.symm hj]
        · by_cases hj : j = i
          · subst hj
            simp only [Usage.next, Function.update_self]
            omega
          · simpa [Usage.next, hj] using hT.peak_eq j
        · rw [hdem]
          exact hT.tail_eq
        · simp [CarveFits, ha, hdem, hle]
  · have hempty : free i = [] := by
      have hc := hT.layout.chain i
      rw [hn] at hc
      cases hfree : free i with
      | nil => rfl
      | cons b rest =>
          rw [hfree] at hc
          cases hc.1
    have hpeak := hT.peak_eq i
    simp only [hempty, List.length_nil, Nat.add_zero] at hpeak
    have hdem := u.demand_carve i hpeak
    refine ⟨⟨free, hT.layout.carve i, fun j => ?_, fun j => ?_, ?_⟩, ?_⟩
    · rw [heldCount_cons, hT.live_eq]
      by_cases hj : i = j
      · subst hj
        simp [Usage.next]
      · simp [Usage.next, hj, Ne.symm hj]
    · by_cases hj : j = i
      · subst hj
        simp [Usage.next, hpeak, hempty]
      · simpa [Usage.next, hj] using hT.peak_eq j
    · show w.mem.tail + blockLen i = base + (u.next (.allocate i)).demand
      rw [hdem, hT.tail_eq, Nat.add_assoc]
    · have htail := hT.tail_eq
      simp only [CarveFits, hn, hdem, forall_const]
      omega
  · have hlive := hT.live_eq i
    have hcount := heldCount_erase hheld i
    simp only [if_true] at hcount
    refine ⟨⟨_, hT.layout.release hheld, fun j => ?_, fun j => ?_, hT.tail_eq⟩, ?_⟩
    · have hj := heldCount_erase hheld j
      rw [hT.live_eq] at hj
      by_cases hij : j = i
      · subst hij
        simp only [Usage.next, Function.update_self]
        simp only [if_true] at hj
        omega
      · simp only [Usage.next, ne_eq, hij, not_false_eq_true, Function.update_of_ne]
        simp only [Ne.symm hij, if_false, Nat.add_zero] at hj
        exact hj.symm
    · have hj := hT.peak_eq j
      by_cases hij : j = i
      · subst hij
        simp only [Usage.next, Function.update_self, List.length_cons]
        omega
      · simpa [Usage.next, hij] using hj
    · exact iff_of_true trivial hle

/-- The carvings of a run all fit exactly when its demand does. -/
theorem carves_fit_iff_demand {calls : List MemCall} {t : Arena}
    (hrun : exec Arena.step w calls = some t) (hT : Tracks base w u free)
    (hle : u.demand ≤ total) :
    Along Arena.step (CarveFits base total) w calls ↔
      (calls.foldl Usage.next u).demand ≤ total := by
  induction calls generalizing w u free with
  | nil => exact iff_of_true trivial hle
  | cons c calls ih =>
      obtain ⟨m, hm, hrest⟩ := exec_cons hrun
      obtain ⟨⟨free', hT'⟩, hfits⟩ := hT.step hle hm
      constructor
      · intro hC
        exact (ih hrest hT' (hfits.mp hC.1)).mp (hC.2 m hm)
      · intro hdem
        have hnext : (u.next c).demand ≤ total :=
          Nat.le_trans ((u.next c).demand_le_foldl calls) hdem
        refine ⟨hfits.mpr hnext, fun m' hm' => ?_⟩
        obtain rfl : m = m' := Option.some.inj (hm.symm.trans hm')
        exact (ih hrest hT' hnext).mpr hdem

end Demand

/-- **When the allocator keeps its promise.**  Through a run of calls that
does not stop, every held block lies in the arena and all blocks are disjoint,
exactly when the arena is as large as the run's demand: the sum over the
indices of the block length times the most blocks held at one time. -/
theorem arena_safe_iff_demand_fits (base total : Nat) (calls : List MemCall)
    (hrun : (exec Arena.step (Arena.start base total) calls).isSome) :
    Throughout Arena.step (ArenaSafe base total) (Arena.start base total) calls ↔
      demand calls ≤ total := by
  obtain ⟨t, ht⟩ := Option.isSome_iff_exists.mp hrun
  rw [arena_safe_iff_carves_fit ht]
  exact carves_fit_iff_demand ht (tracks_start base total)
    (by simp [Usage.demand, Usage.zero])

/-- Two timeout descriptors in an arena that has room for two. -/
theorem arena_safe_two_descriptors :
    Throughout Arena.step (ArenaSafe 4096 36) (Arena.start 4096 36)
      [.allocate TMO_INDEX, .allocate TMO_INDEX] :=
  (arena_safe_iff_demand_fits 4096 36 _ (by decide)).mpr (by decide)

/-- In an arena that has room for one, the second descriptor is handed out
past the end: `taillen` still says that the whole arena is left. -/
theorem arena_overrun :
    ¬ ∀ (base total : Nat) (calls : List MemCall),
      (exec Arena.step (Arena.start base total) calls).isSome →
      Throughout Arena.step (ArenaSafe base total) (Arena.start base total)
        calls := by
  intro hall
  have hth := hall 4096 18 [.allocate TMO_INDEX, .allocate TMO_INDEX] (by decide)
  have hsafe := (hth.2 _ rfl).2 _ rfl
  have hin := hsafe.1 (TMO_INDEX, 4114) List.mem_cons_self
  exact absurd hin.2 (by decide)

end Cxp
