import Cxp.RunInduction
import Mathlib.Data.List.Basic
import Mathlib.Logic.Function.Basic

/-!
# The interprocessor queue (`ipq.m`)

Each processor has a circular queue of process pointers which the other
processors fill with `ipq_add` and which the processor itself empties with
`ipq_remove`.  Here the two functions are cut into their atomic operations
and run in any order: any number of adding processors, one removing one.

A claim moves `nextAdd`, a release moves `nextRem`, and both go round the
ring one slot at a time.  So the slot of the `k`-th claim is `k % QSIZE`, and
the question is only whether claims stay less than a round ahead of releases.
The fullness test of `ipq_add` looks at values read before its
compare-exchange, and the exchange may succeed on a pointer that has been all
the way round: `ipq_lossless_iff_cas_nonfull` says that this is the one way
in which the queue goes wrong.
-/

namespace Cxp

open Run

/-- Number of slots of an interprocessor queue. -/
def QSIZE : Nat := 5

/-- The slot after a given one, round the ring. -/
def slotAfter (a : Nat) : Nat := if a ≠ QSIZE - 1 then a + 1 else 0

theorem slotAfter_mod (k : Nat) : slotAfter (k % QSIZE) = (k + 1) % QSIZE := by
  unfold slotAfter QSIZE
  by_cases h : k % 5 = 5 - 1
  · simp only [h, ne_eq, not_true_eq_false, if_false]
    omega
  · simp only [h, ne_eq, not_false_eq_true, if_true]
    omega

/-- Where a processor stands in `ipq_add`. -/
inductive AddPc (Proc : Type)
  /-- not in `ipq_add` -/
  | idle
  /-- about to load `nextAdd`, at the head of the `do` loop -/
  | loadAdd (proc : Proc)
  /-- has loaded `a`, about to load `nextRem` and test -/
  | loadRem (proc : Proc) (a : Nat)
  /-- found the queue nonfull, about to compare-exchange `nextAdd` -/
  | cas (proc : Proc) (a : Nat)
  /-- has claimed slot `a`, about to store into it -/
  | store (proc : Proc) (a : Nat)
  deriving DecidableEq

/-- Where the target processor stands in `ipq_remove`. -/
inductive RemPc (Proc : Type)
  /-- not in `ipq_remove` -/
  | idle
  /-- has loaded `r`, about to load `nextAdd` -/
  | loadAdd (r : Nat)
  /-- found the queue nonempty, about to exchange slot `r` with null -/
  | exchange (r : Nat)
  /-- has taken `proc` from slot `r`, about to store `nextRem` -/
  | release (r : Nat) (proc : Proc)
  deriving DecidableEq

/-- One interprocessor queue with the processors using it.  `claimed` and
`returned` are histories: the pointers in the order in which their slots were
claimed, and those that `ipq_remove` has returned. -/
structure IPQueue (Pun Proc : Type) where
  nextAdd : Nat
  nextRem : Nat
  que : Nat → Option Proc
  adder : Pun → AddPc Proc
  remover : RemPc Proc
  claimed : List Proc
  returned : List Proc

/-- What happens next: a processor calls `ipq_add`, or does the next atomic
operation of its call, or the target does the next one of `ipq_remove`. -/
inductive IpqAct (Pun Proc : Type)
  | add (u : Pun) (proc : Proc)
  | run (u : Pun)
  | remove

variable {Pun Proc : Type} [DecidableEq Pun]

namespace IPQueue

/-- The queue after `ipq_init`. -/
def init : IPQueue Pun Proc where
  nextAdd := 0
  nextRem := 0
  que := fun _ => none
  adder := fun _ => .idle
  remover := .idle
  claimed := []
  returned := []

/-- The next atomic operation of processor `u` in `ipq_add`. -/
def ipq_add (s : IPQueue Pun Proc) (u : Pun) : Option (IPQueue Pun Proc) :=
  match s.adder u with
  | .idle => none
  | .loadAdd proc =>
      some { s with adder := Function.update s.adder u (.loadRem proc s.nextAdd) }
  | .loadRem proc a =>
      if s.nextRem = slotAfter a then
        some { s with adder := Function.update s.adder u (.loadAdd proc) }
      else some { s with adder := Function.update s.adder u (.cas proc a) }
  | .cas proc a =>
      if s.nextAdd = a then
        some { s with
          nextAdd := slotAfter a
          adder := Function.update s.adder u (.store proc a)
          claimed := s.claimed ++ [proc] }
      else some { s with adder := Function.update s.adder u (.loadAdd proc) }
  | .store proc a =>
      some { s with
        que := Function.update s.que a (some proc)
        adder := Function.update s.adder u .idle }

/-- The next atomic operation of the target processor in `ipq_remove`; the
first one belongs to the call. -/
def ipq_remove (s : IPQueue Pun Proc) : IPQueue Pun Proc :=
  match s.remover with
  | .idle => { s with remover := .loadAdd s.nextRem }
  | .loadAdd r =>
      if s.nextAdd ≠ r then { s with remover := .exchange r }
      else { s with remover := .idle }
  | .exchange r =>
      match s.que r with
      | none => { s with remover := .idle }
      | some proc =>
          { s with
            que := Function.update s.que r none
            remover := .release r proc }
  | .release r proc =>
      { s with
        nextRem := slotAfter r
        remover := .idle
        returned := s.returned ++ [proc] }

/-- One atomic step of the queue and its users. -/
def step (s : IPQueue Pun Proc) : IpqAct Pun Proc → Option (IPQueue Pun Proc)
  | .add u proc =>
      if s.adder u matches .idle then
        some { s with adder := Function.update s.adder u (.loadAdd proc) }
      else none
  | .run u => s.ipq_add u
  | .remove => some s.ipq_remove

/-- The `k`-th claim has been made and not yet been released. -/
def Live (s : IPQueue Pun Proc) (k : Nat) : Prop :=
  s.returned.length ≤ k ∧ k < s.claimed.length

/-- The queue loses nothing.  Returns are the oldest claims, each once and in
order; a slot is empty when its claimant comes to store; the pointer of a
live claim is in its slot, or about to be stored or to be returned; at most
`QSIZE - 1` claims are live; and equal pointers mean that none is. -/
structure Lossless (s : IPQueue Pun Proc) : Prop where
  oldest_first : s.returned <+: s.claimed
  not_overwritten : ∀ u proc a, s.adder u = .store proc a → s.que a = none
  kept : ∀ k p, s.Live k → s.claimed[k]? = some p →
    s.que (k % QSIZE) = some p ∨ (∃ u, s.adder u = .store p (k % QSIZE)) ∨
      s.remover = .release (k % QSIZE) p
  bounded : s.claimed.length ≤ s.returned.length + (QSIZE - 1)
  empty_of_eq : s.nextAdd = s.nextRem → s.claimed.length = s.returned.length

/-- A compare-exchange of `nextAdd` that succeeds finds the queue nonfull at
that moment, and not only when `nextRem` was last read. -/
def CasNonfull (s : IPQueue Pun Proc) : IpqAct Pun Proc → Prop
  | .run u =>
      ∀ proc a, s.adder u = .cas proc a → s.nextAdd = a →
        s.nextRem ≠ slotAfter a
  | _ => True

/-- The target processor's loads of `nextRem` are never stale, and what it
has taken from a slot is the oldest live claim. -/
def Taking (s : IPQueue Pun Proc) : RemPc Proc → Prop
  | .idle => True
  | .loadAdd r => r = s.nextRem
  | .exchange r => r = s.nextRem ∧ s.returned.length < s.claimed.length
  | .release r p =>
      r = s.nextRem ∧ s.que r = none ∧ s.claimed[s.returned.length]? = some p

/-- The invariant of runs in which claims find the queue nonfull. -/
structure Inv (s : IPQueue Pun Proc) : Prop where
  nextAdd_eq : s.nextAdd = s.claimed.length % QSIZE
  nextRem_eq : s.nextRem = s.returned.length % QSIZE
  oldest_first : s.returned <+: s.claimed
  bounded : s.claimed.length ≤ s.returned.length + (QSIZE - 1)
  taking : s.Taking s.remover
  storing : ∀ u p a, s.adder u = .store p a →
    s.que a = none ∧ (∀ r q, s.remover = .release r q → r ≠ a) ∧
      ∃ k, s.Live k ∧ a = k % QSIZE ∧ s.claimed[k]? = some p
  storing_alone : ∀ u v p q a,
    s.adder u = .store p a → s.adder v = .store q a → u = v
  stored : ∀ a p, s.que a = some p →
    ∃ k, s.Live k ∧ a = k % QSIZE ∧ s.claimed[k]? = some p
  kept : ∀ k p, s.Live k → s.claimed[k]? = some p →
    s.que (k % QSIZE) = some p ∨ (∃ u, s.adder u = .store p (k % QSIZE)) ∨
      s.remover = .release (k % QSIZE) p

omit [DecidableEq Pun] in
theorem inv_init : Inv (init : IPQueue Pun Proc) := by
  constructor <;> simp [init, Taking, Live]

variable {s : IPQueue Pun Proc}

omit [DecidableEq Pun] in
theorem Inv.le (h : s.Inv) : s.returned.length ≤ s.claimed.length :=
  h.oldest_first.length_le

omit [DecidableEq Pun] in
/-- Less than a round of claims is live, so live claims in the same slot are
the same claim. -/
theorem Inv.live_unique (h : s.Inv) {j k : Nat} (hj : s.Live j) (hk : s.Live k)
    (heq : j % QSIZE = k % QSIZE) : j = k := by
  have hb := h.bounded
  simp only [Live, QSIZE] at *
  omega

omit [DecidableEq Pun] in
/-- What the fullness test of `ipq_add` finds. -/
theorem Inv.full_iff (h : s.Inv) : s.nextRem = slotAfter s.nextAdd ↔
    s.claimed.length = s.returned.length + (QSIZE - 1) := by
  have hle := h.le
  have hbound := h.bounded
  rw [h.nextAdd_eq, h.nextRem_eq, slotAfter_mod]
  simp only [QSIZE] at *
  omega

omit [DecidableEq Pun] in
/-- What the emptiness test of `ipq_remove` finds. -/
theorem Inv.empty_iff (h : s.Inv) : s.nextAdd = s.nextRem ↔
    s.claimed.length = s.returned.length := by
  have hle := h.le
  have hbound := h.bounded
  rw [h.nextAdd_eq, h.nextRem_eq]
  simp only [QSIZE] at *
  omega

omit [DecidableEq Pun] in
theorem Inv.lossless (h : s.Inv) : s.Lossless where
  oldest_first := h.oldest_first
  not_overwritten := fun u p a hu => (h.storing u p a hu).1
  kept := h.kept
  bounded := h.bounded
  empty_of_eq := h.empty_iff.mp

/-- Moves inside `ipq_add` that neither claim nor fill a slot. -/
theorem Inv.adder_moves (h : s.Inv) {u : Pun} {pc : AddPc Proc}
    (hold : ∀ p a, s.adder u ≠ .store p a) (hnew : ∀ p a, pc ≠ .store p a) :
    Inv { s with adder := Function.update s.adder u pc } := by
  have hsame : ∀ v p a, Function.update s.adder u pc v = .store p a →
      s.adder v = .store p a := by
    intro v p a hv
    by_cases hvu : v = u
    · subst hvu
      simp only [Function.update_self] at hv
      exact absurd hv (hnew p a)
    · simpa [hvu] using hv
  refine ⟨h.nextAdd_eq, h.nextRem_eq, h.oldest_first, h.bounded, ?_, ?_, ?_,
    h.stored, ?_⟩
  · exact h.taking
  · exact fun v p a hv => h.storing v p a (hsame v p a hv)
  · intro v w p q a hv hw
    exact h.storing_alone v w p q a (hsame v p a hv) (hsame w q a hw)
  · intro k p hk hp
    rcases h.kept k p hk hp with hq | ⟨v, hv⟩ | hr
    · exact Or.inl hq
    · refine Or.inr (Or.inl ⟨v, ?_⟩)
      have hvu : v ≠ u := by
        rintro rfl
        exact hold p _ hv
      simpa [hvu] using hv
    · exact Or.inr (Or.inr hr)

/-- A claim made while the queue is nonfull: the claimed slot is empty, and
nobody else is about to store into it. -/
theorem Inv.claims (h : s.Inv) {u : Pun} {p : Proc}
    (hu : s.adder u = .cas p s.nextAdd)
    (hnonfull : s.nextRem ≠ slotAfter s.nextAdd) :
    Inv { s with
      nextAdd := slotAfter s.nextAdd
      adder := Function.update s.adder u (.store p s.nextAdd)
      claimed := s.claimed ++ [p] } := by
  have hle := h.le
  have hroom : s.claimed.length < s.returned.length + (QSIZE - 1) :=
    Nat.lt_of_le_of_ne h.bounded fun heq => hnonfull (h.full_iff.mpr heq)
  -- a live claim is never a whole round behind the new one
  have hother : ∀ k, s.Live k → k % QSIZE ≠ s.nextAdd := by
    intro k hk
    rw [h.nextAdd_eq]
    simp only [Live, QSIZE] at *
    omega
  have hlive : ∀ k, s.Live k →
      s.returned.length ≤ k ∧ k < (s.claimed ++ [p]).length := by
    intro k hk
    simp only [Live, List.length_append, List.length_singleton] at *
    omega
  have hget : ∀ k q, s.Live k → s.claimed[k]? = some q →
      (s.claimed ++ [p])[k]? = some q := by
    intro k q hk hq
    rw [List.getElem?_append_left hk.2]
    exact hq
  have hempty : s.que s.nextAdd = none := by
    cases hq : s.que s.nextAdd with
    | none => rfl
    | some q =>
        obtain ⟨k, hk, hslot, _⟩ := h.stored _ q hq
        exact absurd hslot.symm (hother k hk)
  refine ⟨?_, h.nextRem_eq, ?_, ?_, ?_, ?_, ?_, ?_, ?_⟩
  · simp only [List.length_append, List.length_singleton]
    rw [h.nextAdd_eq, slotAfter_mod]
  · exact h.oldest_first.trans (List.prefix_append _ _)
  · simp only [List.length_append, List.length_singleton]
    omega
  · have ht := h.taking
    cases hr : s.remover with
    | idle => simp [Taking]
    | loadAdd r =>
        rw [hr] at ht
        exact ht
    | exchange r =>
        rw [hr] at ht
        simp only [Taking, List.length_append, List.length_singleton] at ht ⊢
        exact ⟨ht.1, by omega⟩
    | release r q =>
        rw [hr] at ht
        simp only [Taking] at ht ⊢
        refine ⟨ht.1, ht.2.1, ?_⟩
        rw [List.getElem?_append_left]
        · exact ht.2.2
        · exact (List.getElem?_eq_some_iff.mp ht.2.2).1
  · intro v q a hv
    by_cases hvu : v = u
    · subst hvu
      simp only [Function.update_self, AddPc.store.injEq] at hv
      obtain ⟨rfl, rfl⟩ := hv
      refine ⟨hempty, ?_, s.claimed.length, ?_, h.nextAdd_eq, by simp⟩
      · intro r q hr hreq
        have ht := h.taking
        rw [hr] at ht
        have hlt := (List.getElem?_eq_some_iff.mp ht.2.2).1
        refine hother s.returned.length ⟨Nat.le_refl _, hlt⟩ ?_
        rw [← h.nextRem_eq, ← ht.1, hreq]
      · simp only [Live, List.length_append, List.length_singleton]
        omega
    · simp only [ne_eq, hvu, not_false_eq_true, Function.update_of_ne] at hv
      obtain ⟨hq, hr, k, hk, hslot, hget'⟩ := h.storing v q a hv
      exact ⟨hq, hr, k, hlive k hk, hslot, hget k q hk hget'⟩
  · -- the new claimant's slot is that of no earlier claim
    have hnew : ∀ v q a, v ≠ u → s.adder v = .store q a → a ≠ s.nextAdd := by
      intro v q a _ hv ha
      obtain ⟨_, _, k, hk, hslot, _⟩ := h.storing v q a hv
      exact hother k hk (hslot.symm.trans ha)
    intro v w q q' a hv hw
    by_cases hvu : v = u <;> by_cases hwu : w = u
    · exact hvu.trans hwu.symm
    · subst hvu
      simp only [Function.update_self, AddPc.store.injEq, ne_eq, hwu,
        not_false_eq_true, Function.update_of_ne] at hv hw
      exact absurd hv.2.symm (hnew w q' a hwu hw)
    · subst hwu
      simp only [Function.update_self, AddPc.store.injEq, ne_eq, hvu,
        not_false_eq_true, Function.update_of_ne] at hv hw
      exact absurd hw.2.symm (hnew v q a hvu hv)
    · simp only [ne_eq, hvu, hwu, not_false_eq_true,
        Function.update_of_ne] at hv hw
      exact h.storing_alone v w q q' a hv hw
  · intro a q hq
    obtain ⟨k, hk, hslot, hget'⟩ := h.stored a q hq
    exact ⟨k, hlive k hk, hslot, hget k q hk hget'⟩
  · intro k q hk hq
    by_cases hlast : k = s.claimed.length
    · subst hlast
      rw [List.getElem?_concat_length] at hq
      obtain rfl : p = q := Option.some.inj hq
      refine Or.inr (Or.inl ⟨u, ?_⟩)
      simp [h.nextAdd_eq]
    · have hk' : s.Live k := by
        simp only [Live, List.length_append, List.length_singleton] at hk ⊢
        omega
      rw [List.getElem?_append_left hk'.2] at hq
      rcases h.kept k q hk' hq with hs | ⟨v, hv⟩ | hr
      · exact Or.inl hs
      · refine Or.inr (Or.inl ⟨v, ?_⟩)
        have hvu : v ≠ u := by
          rintro rfl
          rw [hu] at hv
          cases hv
        simpa [hvu] using hv
      · exact Or.inr (Or.inr hr)

/-- A claimant stores its pointer into the slot it claimed. -/
theorem Inv.fills (h : s.Inv) {u : Pun} {p : Proc} {a : Nat}
    (hu : s.adder u = .store p a) :
    Inv { s with
      que := Function.update s.que a (some p)
      adder := Function.update s.adder u .idle } := by
  obtain ⟨hempty, hrel, k, hk, hslot, hget⟩ := h.storing u p a hu
  have hstore : ∀ v q b, Function.update s.adder u .idle v = .store q b →
      v ≠ u ∧ s.adder v = .store q b := by
    intro v q b hv
    by_cases hvu : v = u
    · subst hvu
      simp at hv
    · exact ⟨hvu, by simpa [hvu] using hv⟩
  refine ⟨h.nextAdd_eq, h.nextRem_eq, h.oldest_first, h.bounded, ?_, ?_, ?_,
    ?_, ?_⟩
  · have ht := h.taking
    cases hr : s.remover with
    | idle => trivial
    | loadAdd r =>
        rw [hr] at ht
        exact ht
    | exchange r =>
        rw [hr] at ht
        exact ht
    | release r q =>
        rw [hr] at ht
        refine ⟨ht.1, ?_, ht.2.2⟩
        have hne := hrel r q hr
        simpa [hne] using ht.2.1
  · intro v q b hv
    obtain ⟨hvu, hv'⟩ := hstore v q b hv
    have hba : b ≠ a := by
      rintro rfl
      exact hvu (h.storing_alone v u q p b hv' hu)
    obtain ⟨hb, hrest⟩ := h.storing v q b hv'
    exact ⟨by simpa [hba] using hb, hrest⟩
  · intro v w q q' b hv hw
    exact h.storing_alone v w q q' b (hstore v q b hv).2 (hstore w q' b hw).2
  · intro b q hb
    by_cases hba : b = a
    · subst hba
      simp only [Function.update_self, Option.some.injEq] at hb
      exact ⟨k, hk, hslot, hb ▸ hget⟩
    · exact h.stored b q (by simpa [hba] using hb)
  · intro j q hj hq
    by_cases hja : j % QSIZE = a
    · obtain rfl : j = k := h.live_unique hj hk (hja.trans hslot)
      left
      rw [hja]
      simpa using hget.symm.trans hq
    · rcases h.kept j q hj hq with hs | ⟨v, hv⟩ | hr
      · left
        simpa [hja] using hs
      · refine Or.inr (Or.inl ⟨v, ?_⟩)
        have hvu : v ≠ u := by
          rintro rfl
          rw [hu] at hv
          cases hv
          exact hja rfl
        simpa [hvu] using hv
      · exact Or.inr (Or.inr hr)

omit [DecidableEq Pun] in
/-- Moves inside `ipq_remove` that neither take nor release a slot. -/
theorem Inv.remover_moves (h : s.Inv) {pc : RemPc Proc}
    (hold : ∀ r p, s.remover ≠ .release r p) (hnew : ∀ r p, pc ≠ .release r p)
    (htake : s.Taking pc) : Inv { s with remover := pc } := by
  refine ⟨h.nextAdd_eq, h.nextRem_eq, h.oldest_first, h.bounded, htake, ?_,
    h.storing_alone, h.stored, ?_⟩
  · intro u p a hu
    obtain ⟨hq, _, hk⟩ := h.storing u p a hu
    exact ⟨hq, fun r q hr => absurd hr (hnew r q), hk⟩
  · intro k p hk hp
    rcases h.kept k p hk hp with hq | hu | hr
    · exact Or.inl hq
    · exact Or.inr (Or.inl hu)
    · exact absurd hr (hold _ _)

omit [DecidableEq Pun] in
/-- Exchanging a slot with null takes the oldest live claim. -/
theorem Inv.takes (h : s.Inv) {r : Nat} {p : Proc}
    (hr : s.remover = .exchange r) (hq : s.que r = some p) :
    Inv { s with
      que := Function.update s.que r none
      remover := .release r p } := by
  have ht := h.taking
  rw [hr] at ht
  obtain ⟨k, hk, hslot, hget⟩ := h.stored r p hq
  have hfirst : s.Live s.returned.length := ⟨Nat.le_refl _, ht.2⟩
  obtain rfl : k = s.returned.length :=
    h.live_unique hk hfirst (by rw [← hslot, ← h.nextRem_eq, ht.1])
  refine ⟨h.nextAdd_eq, h.nextRem_eq, h.oldest_first, h.bounded,
    ⟨ht.1, by simp, hget⟩, ?_, h.storing_alone, ?_, ?_⟩
  · intro u q a hu
    obtain ⟨ha, _, hrest⟩ := h.storing u q a hu
    have har : a ≠ r := by
      rintro rfl
      rw [hq] at ha
      cases ha
    refine ⟨by simpa [har] using ha, ?_, hrest⟩
    intro r' q' hrel
    cases hrel
    exact har.symm
  · intro a q ha
    have har : a ≠ r := by
      rintro rfl
      simp at ha
    exact h.stored a q (by simpa [har] using ha)
  · intro j q hj hq'
    by_cases hjr : j % QSIZE = r
    · obtain rfl : j = s.returned.length :=
        h.live_unique hj hfirst (hjr.trans hslot)
      obtain rfl : p = q := Option.some.inj (hget.symm.trans hq')
      exact Or.inr (Or.inr (by rw [hjr]))
    · rcases h.kept j q hj hq' with hs | hu | hrel
      · exact Or.inl (by simpa [hjr] using hs)
      · exact Or.inr (Or.inl hu)
      · rw [hr] at hrel
        cases hrel

omit [DecidableEq Pun] in
/-- Storing `nextRem` releases the slot and returns the oldest live claim. -/
theorem Inv.releases (h : s.Inv) {r : Nat} {p : Proc}
    (hr : s.remover = .release r p) :
    Inv { s with
      nextRem := slotAfter r
      remover := .idle
      returned := s.returned ++ [p] } := by
  have ht := h.taking
  rw [hr] at ht
  obtain ⟨hrem, hempty, hget⟩ := ht
  have hlt := (List.getElem?_eq_some_iff.mp hget).1
  have hslot : r = s.returned.length % QSIZE := hrem.trans h.nextRem_eq
  have hlater : ∀ k, s.Live k → k % QSIZE ≠ r →
      (s.returned ++ [p]).length ≤ k ∧ k < s.claimed.length := by
    intro k hk hne
    have hk0 : k ≠ s.returned.length := by
      rintro rfl
      exact hne hslot.symm
    simp only [Live, List.length_append, List.length_singleton] at hk ⊢
    omega
  refine ⟨h.nextAdd_eq, ?_, ?_, ?_, trivial, ?_, h.storing_alone, ?_, ?_⟩
  · simp only [List.length_append, List.length_singleton]
    rw [hslot, slotAfter_mod]
  · obtain ⟨rest, hrest⟩ := h.oldest_first
    rw [← hrest] at hget ⊢
    cases rest with
    | nil => simp at hget
    | cons q rest =>
        simp only [List.getElem?_append_right, Nat.le_refl, Nat.sub_self,
          List.getElem?_cons_zero, Option.some.injEq] at hget
        exact ⟨rest, by simp [hget]⟩
  · have hb := h.bounded
    simp only [List.length_append, List.length_singleton]
    omega
  · intro u q a hu
    obtain ⟨ha, hne, k, hk, hak, hget'⟩ := h.storing u q a hu
    refine ⟨ha, by simp, k, hlater k hk ?_, hak, hget'⟩
    rw [← hak]
    exact (hne r p hr).symm
  · intro a q ha
    obtain ⟨k, hk, hak, hget'⟩ := h.stored a q ha
    refine ⟨k, hlater k hk ?_, hak, hget'⟩
    rintro hkr
    rw [hak, hkr, hempty] at ha
    cases ha
  · intro k q hk hq
    have hk' : s.Live k := by
      simp only [Live, List.length_append, List.length_singleton] at hk ⊢
      omega
    rcases h.kept k q hk' hq with hs | hu | hrel
    · exact Or.inl hs
    · exact Or.inr (Or.inl hu)
    · rw [hr] at hrel
      simp only [RemPc.release.injEq] at hrel
      have hk0 : k = s.returned.length :=
        h.live_unique hk' ⟨Nat.le_refl _, hlt⟩ (hrel.1.symm.trans hslot)
      simp only [Live, List.length_append, List.length_singleton] at hk
      omega

omit [DecidableEq Pun] in
/-- One step of `ipq_remove` keeps the invariant. -/
theorem Inv.remove (h : s.Inv) : Inv s.ipq_remove := by
  have ht := h.taking
  unfold ipq_remove
  split
  next hr =>
    exact h.remover_moves (by simp [hr]) (by simp) rfl
  next r hr =>
    rw [hr] at ht
    split
    next hne =>
      refine h.remover_moves (by simp [hr]) (by simp) ⟨ht, ?_⟩
      rw [ht] at hne
      exact Nat.lt_of_le_of_ne h.le fun heq => hne (h.empty_iff.mpr heq.symm)
    next => exact h.remover_moves (by simp [hr]) (by simp) trivial
  next r hr =>
    split
    next => exact h.remover_moves (by simp [hr]) (by simp) trivial
    next p hq => exact h.takes hr hq
  next r p hr => exact h.releases hr

/-- One step of the queue keeps the invariant, if a successful
compare-exchange finds the queue nonfull. -/
theorem Inv.step {t : IPQueue Pun Proc} {act : IpqAct Pun Proc} (h : s.Inv)
    (hC : s.CasNonfull act) (hstep : s.step act = some t) : t.Inv := by
  cases act with
  | add u p =>
      obtain ⟨hidle, hstep⟩ := Option.ite_none_right_eq_some.mp hstep
      cases hstep
      refine h.adder_moves (fun p a hu => ?_) (by simp)
      simp [hu] at hidle
  | remove =>
      cases hstep
      exact h.remove
  | run u =>
      simp only [IPQueue.step, ipq_add] at hstep
      split at hstep
      next => cases hstep
      next p hu =>
        cases hstep
        exact h.adder_moves (by simp [hu]) (by simp)
      next p a hu =>
        split at hstep <;> cases hstep <;>
          exact h.adder_moves (by simp [hu]) (by simp)
      next p a hu =>
        split at hstep
        next heq =>
          cases hstep
          subst heq
          exact h.claims hu (hC p _ hu rfl)
        next =>
          cases hstep
          exact h.adder_moves (by simp [hu]) (by simp)
      next p a hu =>
        cases hstep
        exact h.fills hu

/-- A successful compare-exchange on a full queue makes a round of claims. -/
theorem Inv.not_lossless_of_cas_full {t : IPQueue Pun Proc}
    {act : IpqAct Pun Proc} (h : s.Inv) (hC : ¬ s.CasNonfull act)
    (hstep : s.step act = some t) : ¬ t.Lossless := by
  cases act with
  | add u p => exact absurd trivial hC
  | remove => exact absurd trivial hC
  | run u =>
      simp only [CasNonfull, not_forall, not_not] at hC
      obtain ⟨p, a, hu, rfl, hfull⟩ := hC
      simp only [IPQueue.step, ipq_add, hu, if_true, Option.some.injEq] at hstep
      intro hloss
      have hb := hloss.bounded
      have hclaimed := h.full_iff.mp hfull
      subst hstep
      simp only [List.length_append, List.length_singleton] at hb
      omega

end IPQueue

/-- **When the interprocessor queue loses nothing.**  In every run of any
number of adding processors and the removing one, the queue is lossless
throughout exactly when each compare-exchange of `nextAdd` that succeeds is
made at a moment at which the queue is not full. -/
theorem ipq_lossless_iff_cas_nonfull (acts : List (IpqAct Pun Proc))
    (hrun : (exec IPQueue.step (IPQueue.init : IPQueue Pun Proc) acts).isSome) :
    Throughout IPQueue.step IPQueue.Lossless (IPQueue.init : IPQueue Pun Proc) acts ↔
      Along IPQueue.step IPQueue.CasNonfull (IPQueue.init : IPQueue Pun Proc) acts := by
  obtain ⟨t, ht⟩ := Option.isSome_iff_exists.mp hrun
  exact throughout_iff_along
    (fun _ _ _ hI hC hstep => hI.step hC hstep)
    (fun _ hI => hI.lossless)
    (fun _ _ _ hI hC hstep => hI.not_lossless_of_cas_full hC hstep)
    ht IPQueue.inv_init

/-- One pointer passed through the queue. -/
theorem ipq_lossless_one_pointer :
    Throughout IPQueue.step IPQueue.Lossless (IPQueue.init : IPQueue (Fin 1) Nat)
      [.add 0 7, .run 0, .run 0, .run 0, .run 0, .remove, .remove] :=
  (ipq_lossless_iff_cas_nonfull _ (by decide)).mpr (by
    simp [Along, IPQueue.CasNonfull, IPQueue.step, IPQueue.ipq_add,
      IPQueue.ipq_remove, IPQueue.init, slotAfter, QSIZE])

/-- One call of `ipq_add` by processor `u`, done without interruption. -/
def addAtOnce (u : Fin 2) (p : Nat) : List (IpqAct (Fin 2) Nat) :=
  [.add u p, .run u, .run u, .run u, .run u]

/-- Processor 0 loads both pointers of the empty queue and is held up before
its compare-exchange.  Processor 1 then goes once round the ring and fills the
queue, one pointer being removed meanwhile, so that `nextAdd` is back at the
value which processor 0 expects. -/
def wrapBeforeCas : List (IpqAct (Fin 2) Nat) :=
  [.add 0 100, .run 0, .run 0] ++
    (addAtOnce 1 101 ++ addAtOnce 1 102 ++ addAtOnce 1 103 ++ addAtOnce 1 104) ++
    [.remove, .remove, .remove, .remove] ++ addAtOnce 1 105 ++ [.run 0]

/-- With two adding processors five claims can be live at once, and the
pointers are then equal although the queue is not empty. -/
theorem ipq_overfilled :
    ¬ ∀ acts : List (IpqAct (Fin 2) Nat),
      (exec IPQueue.step (IPQueue.init : IPQueue (Fin 2) Nat) acts).isSome →
      Throughout IPQueue.step IPQueue.Lossless
        (IPQueue.init : IPQueue (Fin 2) Nat) acts := by
  intro hall
  have hloss := (hall wrapBeforeCas (by decide)).last rfl
  exact absurd (hloss.empty_of_eq (by decide)) (by decide)

end Cxp
