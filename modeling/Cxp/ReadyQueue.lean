import Cxp.InterprocessorQueue
import Cxp.LinkedChain
import Cxp.ProcessRecord
import Mathlib.Data.Fintype.Card

/-!
# Ready queues and interprocessor queues of processes (`sched.c`)

The ready queue of a processor is linked through the process records, sorted
by priority and first in, first out among equals.  A processor makes a process
of another one ready by putting it into that one's interprocessor queue, from
where it is moved to the ready queue.  That queue is here the list of its
entries: a claim of a slot and the store into it count as one addition.

* An `enqueue0` of a record that is in no queue inserts it and keeps all
  others (`Lined.enqueue0`).  Of a record that is linked already it may drop
  others, and `kept` remembers whether one ever did.
* `take` moves the entries of the interprocessor queue and gives the head of
  the ready queue (`Lined.drain`, `Lined.pop`).
-/

namespace Cxp

open LinkedChain

/-- The processes and the fields of their records that never change; and those
which `initialize` makes: the initial process, and on each processor one that
idles. -/
structure Procs (N U : Nat) where
  pun : Fin N → Fin U
  pri : Fin N → Nat
  initial : Fin N
  idler : Fin U → Fin N
  pri_initial : pri initial = INIT_PRI
  pun_idler : ∀ π, pun (idler π) = π
  pri_idler : ∀ π, pri (idler π) = IDLE_PRI

/-- With a single processor everybody is on it. -/
theorem pun_single (π : Fin 1) : 0 = π := (Fin.eq_zero π).symm

/-- The links of the records, the heads of the ready queues, the entries of
the interprocessor queues, and whether every `enqueue0` so far has kept every
linked record linked. -/
structure Queues (N U : Nat) where
  next : Fin N → Option (Fin N)
  head : Fin U → Option (Fin N)
  ipq : Fin U → List (Fin N)
  kept : Bool

namespace Queues

variable {N U : Nat}

/-- The records linked in a ready queue. -/
def links (q : Queues N U) (π : Fin U) : List (Fin N) :=
  follow q.next (N + 1) (q.head π)

/-- Everything that was linked still is, and so is `proc`. -/
def Keeps (sys : Procs N U) (q q' : Queues N U) (proc : Fin N) : Prop :=
  proc ∈ q'.links (sys.pun proc) ∧ ∀ π, ∀ x ∈ q.links π, x ∈ q'.links π

instance (sys : Procs N U) (q q' : Queues N U) (proc : Fin N) :
    Decidable (Keeps sys q q' proc) :=
  inferInstanceAs (Decidable (_ ∧ _))

/-- Insert a process into the ready queue of its processor, behind those of
its priority.  `none`: the search does not end. -/
def enqueue0 (sys : Procs N U) (q : Queues N U) (proc : Fin N) :
    Option (Queues N U) :=
  let π := sys.pun proc
  let go := fun curr => pri_le (sys.pri proc) (sys.pri curr)
  (walk q.next go (N + 1) none (q.head π)).map fun (prev, curr) =>
    let (next, head) := splice q.next (q.head π) prev proc curr
    let q' := { q with next := next, head := Function.update q.head π head }
    { q' with kept := q.kept && decide (Keeps sys q q' proc) }

/-- Put a process into an interprocessor queue.  `none`: it is full, and the
caller spins. -/
def ipq_add (q : Queues N U) (π : Fin U) (proc : Fin N) : Option (Queues N U) :=
  if (q.ipq π).length < QSIZE - 1 then
    some { q with ipq := Function.update q.ipq π (q.ipq π ++ [proc]) }
  else none

/-- The next entry of an interprocessor queue, if any, and the queue without
it. -/
def ipq_remove (q : Queues N U) (π : Fin U) : Option (Fin N × Queues N U) :=
  match q.ipq π with
  | [] => none
  | proc :: rest => some (proc, { q with ipq := Function.update q.ipq π rest })

/-- Move as many entries of the interprocessor queue to the ready queue, the
loop of `take` and `take1`. -/
def drain (sys : Procs N U) (π : Fin U) : Nat → Queues N U → Option (Queues N U)
  | 0, q => some q
  | n + 1, q =>
      match q.ipq_remove π with
      | none => some q
      | some (proc, q) => (q.enqueue0 sys proc).bind (drain sys π n)

/-- Take the head entry off a ready queue. -/
def pop (q : Queues N U) (π : Fin U) : Option (Fin N × Queues N U) :=
  (q.head π).map fun proc =>
    (proc, { q with head := Function.update q.head π (q.next proc) })

/-- The head entry, after the interprocessor queue has been moved to the ready
queue.  `none`: the ready queue is empty. -/
def take (sys : Procs N U) (q : Queues N U) (π : Fin U) :
    Option (Fin N × Queues N U) :=
  (drain sys π (q.ipq π).length q).bind fun q => q.pop π

/-- The head entry provided that there are at least two. -/
def take1 (sys : Procs N U) (q : Queues N U) (π : Fin U) :
    Option (Option (Fin N) × Queues N U) :=
  (drain sys π (q.ipq π).length q).map fun q =>
    match q.head π with
    | none => (none, q)
    | some proc =>
        match q.next proc with
        | none => (none, q)
        | some next => (some proc, { q with head := Function.update q.head π (some next) })

/-- The process is linked in its ready queue or in its interprocessor queue. -/
def Queued (sys : Procs N U) (q : Queues N U) (p : Fin N) : Prop :=
  p ∈ q.links (sys.pun p) ∨ p ∈ q.ipq (sys.pun p)

instance (sys : Procs N U) (q : Queues N U) (p : Fin N) : Decidable (Queued sys q p) :=
  inferInstanceAs (Decidable (_ ∨ _))

/-- `a` may stand in front of `b`. -/
def Ranked (sys : Procs N U) (a b : Fin N) : Prop :=
  pri_le (sys.pri b) (sys.pri a) = true

/-- Each ready queue is a chain sorted by priority, and the records are queued
at their own processors. -/
structure Chained (sys : Procs N U) (q : Queues N U) : Prop where
  chain : ∀ π, Chain q.next (q.head π) (q.links π)
  sorted : ∀ π, (q.links π).Pairwise (Ranked sys)
  pun_links : ∀ π, ∀ p ∈ q.links π, sys.pun p = π
  pun_ipq : ∀ π, ∀ p ∈ q.ipq π, sys.pun p = π

/-- Moreover, no record is in two places. -/
structure Lined (sys : Procs N U) (q : Queues N U) : Prop extends Chained sys q where
  nodup_ipq : ∀ π, (q.ipq π).Nodup
  apart : ∀ π, ∀ p ∈ q.links π, p ∉ q.ipq π

/-- The list that `enqueue0` makes of a ready queue: the process stands behind
those of its priority.  If it was there already, those between its old place and
the new one are lost. -/
def placed (sys : Procs N U) (l : List (Fin N)) (proc : Fin N) : List (Fin N) :=
  (l.takeWhile fun curr => pri_le (sys.pri proc) (sys.pri curr)).takeWhile (· ≠ proc) ++
    proc :: l.dropWhile fun curr => pri_le (sys.pri proc) (sys.pri curr)

/-- A chain of processes has at most as many records as there are. -/
theorem links_of_chain {q : Queues N U} {π : Fin U} {xs : List (Fin N)}
    (hc : Chain q.next (q.head π) xs) : q.links π = xs := by
  refine hc.follow_eq ?_
  have hlen := hc.nodup.length_le_card
  rw [Fintype.card_fin] at hlen
  omega

variable {sys : Procs N U} {q q' : Queues N U} {π : Fin U} {p proc : Fin N}
  {l : List (Fin N)}

section Places

theorem before_sublist (sys : Procs N U) (l : List (Fin N)) (proc : Fin N) :
    List.Sublist ((l.takeWhile fun curr => pri_le (sys.pri proc) (sys.pri curr)).takeWhile
      (· ≠ proc)) l :=
  (List.takeWhile_sublist _).trans (List.takeWhile_sublist _)

theorem takeWhile_ne_of_notMem (h : proc ∉ l) : l.takeWhile (· ≠ proc) = l := by
  apply List.takeWhile_eq_self_iff.mpr
  intro x hx
  exact decide_eq_true (ne_of_mem_of_not_mem hx h)

/-- What is left behind the place of a process is of lower priority. -/
theorem lower_of_mem_dropWhile (hl : l.Pairwise (Ranked sys)) {x : Fin N}
    (hx : x ∈ l.dropWhile fun curr => pri_le (sys.pri proc) (sys.pri curr)) :
    pri_le (sys.pri proc) (sys.pri x) = false := by
  induction l with
  | nil => cases hx
  | cons y ys ih =>
      rw [List.pairwise_cons] at hl
      by_cases hy : pri_le (sys.pri proc) (sys.pri y)
      · rw [List.dropWhile_cons, if_pos hy] at hx
        exact ih hl.2 hx
      · rw [List.dropWhile_cons, if_neg hy] at hx
        have hy' : pri_le (sys.pri proc) (sys.pri y) = false := eq_false_of_ne_true hy
        rcases List.mem_cons.mp hx with rfl | hx
        · exact hy'
        · have hyx : pri_le (sys.pri x) (sys.pri y) = true := hl.1 x hx
          simp only [pri_le, ge_iff_le, decide_eq_false_iff_not, not_le,
            decide_eq_true_eq] at hy' hyx ⊢
          omega

theorem notMem_dropWhile (hl : l.Pairwise (Ranked sys)) :
    proc ∉ l.dropWhile fun curr => pri_le (sys.pri proc) (sys.pri curr) := by
  intro hmem
  have hlow := lower_of_mem_dropWhile hl hmem
  simp [pri_le] at hlow

theorem mem_placed {x : Fin N} (h : x ∈ placed sys l proc) : x ∈ l ∨ x = proc := by
  unfold placed at h
  rcases List.mem_append.mp h with h | h
  · exact Or.inl ((before_sublist sys l proc).subset h)
  · rcases List.mem_cons.mp h with h | h
    · exact Or.inr h
    · exact Or.inl ((List.dropWhile_sublist _).subset h)

/-- A process that is not there yet is put in and nothing is lost. -/
theorem mem_placed_iff (hp : proc ∉ l) {x : Fin N} :
    x ∈ placed sys l proc ↔ x ∈ l ∨ x = proc := by
  refine ⟨mem_placed, fun h => ?_⟩
  have hp' : proc ∉ l.takeWhile fun curr => pri_le (sys.pri proc) (sys.pri curr) :=
    fun hmem => hp ((List.takeWhile_sublist _).subset hmem)
  unfold placed
  rw [takeWhile_ne_of_notMem hp']
  rw [← List.takeWhile_append_dropWhile
    (p := fun curr => pri_le (sys.pri proc) (sys.pri curr)) (l := l)] at h
  simp only [List.mem_append, List.mem_cons] at h ⊢
  tauto

theorem placed_sorted (hl : l.Pairwise (Ranked sys)) :
    (placed sys l proc).Pairwise (Ranked sys) := by
  have hgo : ∀ x ∈ (l.takeWhile fun curr => pri_le (sys.pri proc) (sys.pri curr)).takeWhile
      (· ≠ proc), pri_le (sys.pri proc) (sys.pri x) = true := by
    intro x hx
    have hx' : x ∈ l.takeWhile fun curr => pri_le (sys.pri proc) (sys.pri curr) :=
      (List.takeWhile_sublist _).subset hx
    exact List.mem_takeWhile_imp (p := fun curr => pri_le (sys.pri proc) (sys.pri curr)) hx'
  have hsub := before_sublist sys l proc
  unfold placed
  rw [List.pairwise_append, List.pairwise_cons]
  refine ⟨hl.sublist hsub, ⟨fun y hy => ?_, hl.sublist (List.dropWhile_sublist _)⟩, ?_⟩
  · have hlow := lower_of_mem_dropWhile hl hy
    simp only [Ranked, pri_le, ge_iff_le, decide_eq_true_eq, decide_eq_false_iff_not,
      not_le] at hlow ⊢
    omega
  · intro x hx y hy
    have hpx := hgo x hx
    rcases List.mem_cons.mp hy with rfl | hy
    · exact hpx
    · have hlow := lower_of_mem_dropWhile hl hy
      simp only [Ranked, pri_le, ge_iff_le, decide_eq_true_eq, decide_eq_false_iff_not,
        not_le] at hpx hlow ⊢
      omega

end Places

theorem Chained.nodup (h : Chained sys q) (π : Fin U) : (q.links π).Nodup :=
  (h.chain π).nodup

theorem Chained.not_mem_links (h : Chained sys q) (hp : ¬Queued sys q p) (π : Fin U) :
    p ∉ q.links π := by
  intro hmem
  exact hp (Or.inl (h.pun_links π p hmem ▸ hmem))

theorem Chained.not_mem_ipq (h : Chained sys q) (hp : ¬Queued sys q p) (π : Fin U) :
    p ∉ q.ipq π := by
  intro hmem
  exact hp (Or.inr (h.pun_ipq π p hmem ▸ hmem))

/-- The splice of `enqueue0` in a chain. -/
theorem Chained.splice (h : Chained sys q) (proc : Fin N) :
    let go := fun curr => pri_le (sys.pri proc) (sys.pri curr)
    let l := q.links (sys.pun proc)
    let sp := LinkedChain.splice q.next (q.head (sys.pun proc)) (l.takeWhile go).getLast? proc
      (l.dropWhile go).head?
    Chain sp.1 sp.2 (placed sys l proc) := by
  intro go l sp
  set xs := l.takeWhile go with hxs
  set ys := l.dropWhile go with hys
  have hxy : xs ++ ys = l := List.takeWhile_append_dropWhile
  have hc : Chain q.next (q.head (sys.pun proc)) (xs ++ ys) := hxy ▸ h.chain (sys.pun proc)
  have hy : proc ∉ ys := notMem_dropWhile (h.sorted _)
  by_cases hx : proc ∈ xs
  · -- the record is in the chain already
    obtain ⟨as, bs, hab⟩ := List.append_of_mem hx
    have has : proc ∉ as := by
      intro hmem
      have hnd := hc.nodup
      rw [hab] at hnd
      grind
    have hplaced : placed sys l proc = as ++ proc :: ys := by
      unfold placed
      rw [← hxs, ← hys, hab, List.takeWhile_append_of_pos, List.takeWhile_cons_of_neg]
      · simp
      · simp
      · intro x hmem
        exact decide_eq_true (ne_of_mem_of_not_mem hmem has)
    rw [hplaced]
    rw [hab] at hc
    have hagain := Chain.splice_again hc
    rw [← hab] at hagain
    exact hagain
  · have hplaced : placed sys l proc = xs ++ proc :: ys := by
      unfold placed
      rw [← hxs, ← hys, takeWhile_ne_of_notMem hx]
    rw [hplaced]
    exact Chain.splice hc hx hy

/-- **`enqueue0`.**  It always ends, leaves the other ready queues alone, and
places the process in its own; one that is not linked yet displaces nobody. -/
theorem Chained.enqueue0 (h : Chained sys q) (proc : Fin N) :
    ∃ q', q.enqueue0 sys proc = some q' ∧ Chained sys q' ∧ q'.ipq = q.ipq ∧
      q'.links (sys.pun proc) = placed sys (q.links (sys.pun proc)) proc ∧
      (∀ π, π ≠ sys.pun proc → q'.links π = q.links π) ∧
      (proc ∉ q.links (sys.pun proc) → q'.kept = q.kept) := by
  set σ := sys.pun proc with hσ
  set go := fun curr => pri_le (sys.pri proc) (sys.pri curr) with hgo
  set xs := (q.links σ).takeWhile go with hxs
  set ys := (q.links σ).dropWhile go with hys
  have hxy : xs ++ ys = q.links σ := List.takeWhile_append_dropWhile
  have hwalk : walk q.next go (N + 1) none (q.head σ) = some (xs.getLast?, ys.head?) := by
    have hlen := (h.nodup σ).length_le_card
    rw [Fintype.card_fin] at hlen
    rw [walk_eq go none (h.chain σ) (by omega), Option.or_none]
  set sp := LinkedChain.splice q.next (q.head σ) xs.getLast? proc ys.head? with hsp
  have hsplice : Chain sp.1 sp.2 (placed sys (q.links σ) proc) := h.splice proc
  set q₁ : Queues N U :=
    { q with next := sp.1, head := Function.update q.head σ sp.2 } with hq₁
  have hin : q₁.links σ = placed sys (q.links σ) proc := by
    refine links_of_chain ?_
    simpa only [hq₁, Function.update_self] using hsplice
  have hother : ∀ π, π ≠ σ → Chain q₁.next (q₁.head π) (q.links π) := by
    intro π hπ
    simp only [hq₁, Function.update_of_ne hπ]
    refine (h.chain π).congr fun x hmem => splice_next_of_ne ?_ ?_
    · rintro rfl
      exact hπ (h.pun_links π x hmem).symm
    · intro hlast
      have hxσ : x ∈ q.links σ :=
        hxy ▸ List.mem_append_left ys (List.mem_of_getLast? hlast.symm)
      exact hπ (h.pun_links π x hmem ▸ h.pun_links σ x hxσ)
  have hlinks : ∀ π, π ≠ σ → q₁.links π = q.links π := fun π hπ =>
    links_of_chain (hother π hπ)
  have hkeeps : proc ∉ q.links σ → Keeps sys q q₁ proc := by
    intro hp
    refine ⟨?_, fun π x hmem => ?_⟩
    · rw [← hσ, hin, mem_placed_iff hp]
      exact Or.inr rfl
    · by_cases hπ : π = σ
      · subst hπ
        rw [hin, mem_placed_iff hp]
        exact Or.inl hmem
      · rwa [hlinks π hπ]
  have hchained : Chained sys q₁ := by
    refine ⟨fun π => ?_, fun π => ?_, fun π x hx => ?_, h.pun_ipq⟩ <;>
      by_cases hπ : π = σ
    · subst hπ
      rw [hin]
      simpa only [hq₁, Function.update_self] using hsplice
    · rw [hlinks π hπ]
      exact hother π hπ
    · subst hπ
      rw [hin]
      exact placed_sorted (h.sorted σ)
    · rw [hlinks π hπ]
      exact h.sorted π
    · subst hπ
      rw [hin] at hx
      rcases mem_placed hx with hx | rfl
      · exact h.pun_links σ x hx
      · exact hσ.symm
    · rw [hlinks π hπ] at hx
      exact h.pun_links π x hx
  refine ⟨{ q₁ with kept := q.kept && decide (Keeps sys q q₁ proc) }, ?_,
    ⟨hchained.chain, hchained.sorted, hchained.pun_links, hchained.pun_ipq⟩, rfl, hin, hlinks,
    fun hp => ?_⟩
  · simp only [Queues.enqueue0, ← hσ, ← hgo, hwalk, Option.map_some]
    rfl
  · simp [hkeeps hp]

/-- What `ipq_add` does. -/
theorem Chained.ipq_add (h : Chained sys q)
    (hadd : q.ipq_add (sys.pun proc) proc = some q') :
    Chained sys q' ∧ q'.kept = q.kept ∧ q'.links = q.links ∧
      q'.ipq = Function.update q.ipq (sys.pun proc) (q.ipq (sys.pun proc) ++ [proc]) := by
  unfold Queues.ipq_add at hadd
  split at hadd
  swap
  · cases hadd
  obtain rfl := Option.some.inj hadd
  refine ⟨⟨h.chain, h.sorted, h.pun_links, fun π x hx => ?_⟩, rfl, rfl, rfl⟩
  by_cases hπ : π = sys.pun proc
  · subst hπ
    simp only [Function.update_self, List.mem_append, List.mem_singleton] at hx
    rcases hx with hx | rfl
    · exact h.pun_ipq _ x hx
    · rfl
  · exact h.pun_ipq π x (by simpa [hπ] using hx)

/-- What `ipq_remove` does. -/
theorem Chained.ipq_remove (h : Chained sys q) (hrem : q.ipq_remove π = some (proc, q')) :
    Chained sys q' ∧ q'.kept = q.kept ∧ q'.links = q.links ∧ sys.pun proc = π ∧
      ∃ rest, q.ipq π = proc :: rest ∧ q'.ipq = Function.update q.ipq π rest := by
  unfold Queues.ipq_remove at hrem
  split at hrem
  · cases hrem
  next rest hipq =>
    cases hrem
    refine ⟨⟨h.chain, h.sorted, h.pun_links, fun σ x hx => ?_⟩, rfl, rfl, ?_, rest, hipq, rfl⟩
    · by_cases hσ : σ = π
      · subst hσ
        have hx' : x ∈ rest := by simpa using hx
        exact h.pun_ipq σ x (hipq ▸ List.mem_cons_of_mem _ hx')
      · exact h.pun_ipq σ x (by simpa [hσ] using hx)
    · exact h.pun_ipq π proc (hipq ▸ List.mem_cons_self ..)

/-- **Merging.**  The loop of `take` ends, empties the interprocessor queue,
adds at most its entries to the ready queue, and touches no other processor's
queues. -/
theorem Chained.drain (h : Chained sys q) (π : Fin U) :
    ∃ q', Queues.drain sys π (q.ipq π).length q = some q' ∧ Chained sys q' ∧
      q'.ipq π = [] ∧ (∀ σ, σ ≠ π → q'.links σ = q.links σ ∧ q'.ipq σ = q.ipq σ) ∧
      ∀ x ∈ q'.links π, x ∈ q.links π ∨ x ∈ q.ipq π := by
  generalize hn : (q.ipq π).length = n
  induction n generalizing q with
  | zero =>
      exact ⟨q, rfl, h, List.length_eq_zero_iff.mp hn, fun _ _ => ⟨rfl, rfl⟩,
        fun _ hx => Or.inl hx⟩
  | succ n ih =>
      cases hrem : q.ipq_remove π with
      | none =>
          unfold Queues.ipq_remove at hrem
          split at hrem
          · simp_all
          · cases hrem
      | some r =>
          obtain ⟨proc, q₁⟩ := r
          obtain ⟨h₁, -, hlinks₁, hpun, rest, hipq, hipq₁⟩ := h.ipq_remove hrem
          obtain ⟨q₂, hq₂, h₂, hipq₂, hplaced, hothers, -⟩ := h₁.enqueue0 proc
          have hrest : q₂.ipq π = rest := by simp [hipq₂, hipq₁]
          have hlen : (q₂.ipq π).length = n := by
            rw [hipq, List.length_cons] at hn
            rw [hrest]
            omega
          obtain ⟨q', hq', h', hemp, hoth, hmem⟩ := ih h₂ hlen
          refine ⟨q', ?_, h', hemp, fun σ hσ => ?_, fun x hx => ?_⟩
          · simp [Queues.drain, hrem, hq₂, hq']
          · rw [(hoth σ hσ).1, (hoth σ hσ).2, hothers σ (hpun ▸ hσ), hlinks₁, hipq₂, hipq₁,
              Function.update_of_ne hσ]
            exact ⟨rfl, rfl⟩
          · rcases hmem x hx with hx | hx
            · rw [← hpun, hplaced, hlinks₁] at hx
              rcases mem_placed hx with hx | rfl
              · exact Or.inl (hpun ▸ hx)
              · exact Or.inr (hipq ▸ List.mem_cons_self ..)
            · rw [hrest] at hx
              exact Or.inr (hipq ▸ List.mem_cons_of_mem _ hx)

/-- The head of a ready queue is the first of its records. -/
theorem Chained.head_eq (h : Chained sys q) (π : Fin U) : q.head π = (q.links π).head? := by
  have hc := h.chain π
  cases hl : q.links π with
  | nil =>
      rw [hl] at hc
      exact hc
  | cons x xs =>
      rw [hl] at hc
      exact hc.1

/-- Taking the head off. -/
theorem Chained.pop (h : Chained sys q) (hpop : q.pop π = some (proc, q')) :
    Chained sys q' ∧ q'.kept = q.kept ∧ q'.ipq = q.ipq ∧ sys.pun proc = π ∧
      q.links π = proc :: q'.links π ∧ ∀ σ, σ ≠ π → q'.links σ = q.links σ := by
  obtain ⟨n, hhead, hn⟩ := Option.map_eq_some_iff.mp hpop
  cases hn
  obtain ⟨rest, hlinks⟩ : ∃ rest, q.links π = proc :: rest := by
    have heq := h.head_eq π
    rw [hhead] at heq
    exact List.head?_eq_some_iff.mp heq.symm
  have hc := h.chain π
  have hsorted := h.sorted π
  rw [hlinks] at hc hsorted
  set q' : Queues N U := { q with head := Function.update q.head π (q.next proc) } with hq'
  have hchain : ∀ σ, Chain q'.next (q'.head σ) (if σ = π then rest else q.links σ) := by
    intro σ
    by_cases hσ : σ = π
    · subst hσ
      simpa [hq'] using hc.2
    · simpa [hq', hσ] using h.chain σ
  have hlinks' : ∀ σ, q'.links σ = if σ = π then rest else q.links σ :=
    fun σ => links_of_chain (hchain σ)
  have hπ : q'.links π = rest := by rw [hlinks', if_pos rfl]
  have hσ : ∀ σ, σ ≠ π → q'.links σ = q.links σ := fun σ hσ => by rw [hlinks', if_neg hσ]
  refine ⟨⟨fun σ => hlinks' σ ▸ hchain σ, fun σ => ?_, fun σ x hx => ?_, h.pun_ipq⟩, rfl, rfl,
    h.pun_links π proc (hlinks ▸ List.mem_cons_self ..), by rw [hlinks, hπ], hσ⟩
  · by_cases hσπ : σ = π
    · rw [hσπ, hπ]
      exact (List.pairwise_cons.mp hsorted).2
    · rw [hσ σ hσπ]
      exact h.sorted σ
  · by_cases hσπ : σ = π
    · rw [hσπ, hπ] at hx
      exact h.pun_links σ x (hσπ ▸ hlinks ▸ List.mem_cons_of_mem _ hx)
    · rw [hσ σ hσπ] at hx
      exact h.pun_links σ x hx

/-- `q'` is `q` with one more process queued. -/
structure Adds (sys : Procs N U) (q q' : Queues N U) (proc : Fin N) : Prop where
  lined : Lined sys q'
  kept : q'.kept = q.kept
  queued : ∀ x, Queued sys q' x ↔ Queued sys q x ∨ x = proc

/-- `q'` is `q` without one process that was queued. -/
structure Removes (sys : Procs N U) (q q' : Queues N U) (proc : Fin N) : Prop where
  lined : Lined sys q'
  kept : q'.kept = q.kept
  was : Queued sys q proc
  queued : ∀ x, Queued sys q' x ↔ Queued sys q x ∧ x ≠ proc

theorem Lined.enqueue0 (h : Lined sys q) (hp : ¬Queued sys q proc) :
    ∃ q', q.enqueue0 sys proc = some q' ∧ q'.ipq = q.ipq ∧ Adds sys q q' proc := by
  obtain ⟨q', hq', hchained, hipq, hself, hother, hkept⟩ := h.toChained.enqueue0 proc
  have hout : proc ∉ q.links (sys.pun proc) := h.not_mem_links hp _
  have hmem : ∀ π x, x ∈ q'.links π ↔ x ∈ q.links π ∨ x = proc ∧ sys.pun proc = π := by
    intro π x
    by_cases hπ : π = sys.pun proc
    · subst hπ
      rw [hself, mem_placed_iff hout]
      simp
    · rw [hother π hπ]
      simp [Ne.symm hπ]
  refine ⟨q', hq', hipq, ⟨hchained, ?_, ?_⟩, hkept hout, ?_⟩
  · rw [hipq]
    exact h.nodup_ipq
  · intro π x hx
    rw [hipq]
    rcases (hmem π x).mp hx with hx | ⟨rfl, hπ⟩
    · exact h.apart π x hx
    · exact h.not_mem_ipq hp π
  · intro x
    unfold Queued
    rw [hmem, hipq]
    constructor
    · rintro ((hx | ⟨hx, _⟩) | hx)
      · exact Or.inl (Or.inl hx)
      · exact Or.inr hx
      · exact Or.inl (Or.inr hx)
    · rintro ((hx | hx) | rfl)
      · exact Or.inl (Or.inl hx)
      · exact Or.inr hx
      · exact Or.inl (Or.inr ⟨rfl, rfl⟩)

theorem Lined.ipq_add (h : Lined sys q) (hp : ¬Queued sys q proc)
    (hadd : q.ipq_add (sys.pun proc) proc = some q') : Adds sys q q' proc := by
  obtain ⟨hchained, hkept, hlinks, hipq⟩ := h.toChained.ipq_add hadd
  have hmem : ∀ π x, x ∈ q'.ipq π ↔ x ∈ q.ipq π ∨ x = proc ∧ sys.pun proc = π := by
    intro π x
    rw [hipq]
    by_cases hπ : π = sys.pun proc
    · subst hπ
      simp
    · simp [hπ, Ne.symm hπ]
  refine ⟨⟨hchained, ?_, ?_⟩, hkept, ?_⟩
  · intro π
    rw [hipq]
    by_cases hπ : π = sys.pun proc
    · subst hπ
      rw [Function.update_self]
      refine List.nodup_append.mpr ⟨h.nodup_ipq _, List.nodup_singleton _, ?_⟩
      intro x hx y hy
      rw [List.mem_singleton.mp hy]
      exact ne_of_mem_of_not_mem hx (h.not_mem_ipq hp _)
    · rw [Function.update_of_ne hπ]
      exact h.nodup_ipq π
  · intro π x hx hx'
    rw [hlinks] at hx
    rcases (hmem π x).mp hx' with hx' | ⟨rfl, _⟩
    · exact h.apart π x hx hx'
    · exact h.not_mem_links hp π hx
  · intro x
    unfold Queued
    rw [hmem, hlinks]
    constructor
    · rintro (hx | hx | ⟨hx, _⟩)
      · exact Or.inl (Or.inl hx)
      · exact Or.inl (Or.inr hx)
      · exact Or.inr hx
    · rintro ((hx | hx) | rfl)
      · exact Or.inl hx
      · exact Or.inr (Or.inl hx)
      · exact Or.inr (Or.inr ⟨rfl, rfl⟩)

theorem Lined.ipq_remove (h : Lined sys q) (hrem : q.ipq_remove π = some (proc, q')) :
    Removes sys q q' proc ∧ sys.pun proc = π ∧ q.ipq π = proc :: q'.ipq π := by
  obtain ⟨hchained, hkept, hlinks, hpun, rest, hipq, hipq'⟩ := h.toChained.ipq_remove hrem
  have hnd := h.nodup_ipq π
  rw [hipq, List.nodup_cons] at hnd
  have hmem : ∀ σ x, x ∈ q'.ipq σ ↔ x ∈ q.ipq σ ∧ ¬(x = proc ∧ σ = π) := by
    intro σ x
    rw [hipq']
    by_cases hσ : σ = π
    · subst hσ
      simp only [Function.update_self, hipq, List.mem_cons, and_true]
      constructor
      · intro hx
        exact ⟨Or.inr hx, ne_of_mem_of_not_mem hx hnd.1⟩
      · rintro ⟨hx | hx, hne⟩
        · exact absurd hx hne
        · exact hx
    · simp [hσ]
  refine ⟨⟨⟨hchained, ?_, ?_⟩, hkept, ?_, ?_⟩, hpun, by simp [hipq, hipq']⟩
  · intro σ
    rw [hipq']
    by_cases hσ : σ = π
    · subst hσ
      simpa using hnd.2
    · simpa [hσ] using h.nodup_ipq σ
  · intro σ x hx hx'
    rw [hlinks] at hx
    exact h.apart σ x hx ((hmem σ x).mp hx').1
  · exact Or.inr (by rw [hpun, hipq]; exact List.mem_cons_self ..)
  · intro x
    unfold Queued
    rw [hmem, hlinks]
    constructor
    · rintro (hx | ⟨hx, hne⟩)
      · refine ⟨Or.inl hx, ?_⟩
        rintro rfl
        exact h.apart _ x hx (by rw [hpun, hipq]; exact List.mem_cons_self ..)
      · refine ⟨Or.inr hx, ?_⟩
        rintro rfl
        exact hne ⟨rfl, hpun⟩
    · rintro ⟨hx | hx, hne⟩
      · exact Or.inl hx
      · exact Or.inr ⟨hx, fun hp => hne hp.1⟩

/-- To move the interprocessor queue's entries to the ready queue changes
nothing about what is queued. -/
theorem Lined.drain (h : Lined sys q) :
    ∃ q', Queues.drain sys π (q.ipq π).length q = some q' ∧ Lined sys q' ∧
      q'.kept = q.kept ∧ ∀ x, Queued sys q' x ↔ Queued sys q x := by
  generalize hn : (q.ipq π).length = n
  induction n generalizing q with
  | zero => exact ⟨q, rfl, h, rfl, fun _ => Iff.rfl⟩
  | succ n ih =>
      cases hrem : q.ipq_remove π with
      | none =>
          unfold Queues.ipq_remove at hrem
          split at hrem
          · simp_all
          · cases hrem
      | some r =>
          obtain ⟨proc, q₁⟩ := r
          obtain ⟨hr, hpun, hipq⟩ := h.ipq_remove hrem
          have hout : ¬Queued sys q₁ proc := fun hq => ((hr.queued proc).mp hq).2 rfl
          obtain ⟨q₂, hq₂, hipq₂, ha⟩ := hr.lined.enqueue0 hout
          have hlen : (q₂.ipq π).length = n := by
            rw [hipq, List.length_cons] at hn
            rw [hipq₂]
            omega
          obtain ⟨q', hq', hl, hk, hiff⟩ := ih ha.lined hlen
          refine ⟨q', ?_, hl, hk.trans (ha.kept.trans hr.kept), fun x => ?_⟩
          · simp [Queues.drain, hrem, hq₂, hq']
          · rw [hiff, ha.queued, hr.queued]
            constructor
            · rintro (hx | rfl)
              · exact hx.1
              · exact hr.was
            · intro hx
              by_cases hxp : x = proc
              · exact Or.inr hxp
              · exact Or.inl ⟨hx, hxp⟩

theorem Lined.pop (h : Lined sys q) (hpop : q.pop π = some (proc, q')) :
    Removes sys q q' proc ∧ sys.pun proc = π := by
  obtain ⟨hchained, hkept, hipq, hpun, hlinks, hother⟩ := h.toChained.pop hpop
  have hnd := h.nodup π
  rw [hlinks, List.nodup_cons] at hnd
  have hmem : ∀ σ x, x ∈ q'.links σ ↔ x ∈ q.links σ ∧ ¬(x = proc ∧ σ = π) := by
    intro σ x
    by_cases hσ : σ = π
    · subst hσ
      simp only [hlinks, List.mem_cons, and_true]
      constructor
      · intro hx
        exact ⟨Or.inr hx, ne_of_mem_of_not_mem hx hnd.1⟩
      · rintro ⟨hx | hx, hne⟩
        · exact absurd hx hne
        · exact hx
    · rw [hother σ hσ]
      simp [hσ]
  refine ⟨⟨⟨hchained, hipq ▸ h.nodup_ipq, ?_⟩, hkept, ?_, ?_⟩, hpun⟩
  · intro σ x hx
    rw [hipq]
    exact h.apart σ x ((hmem σ x).mp hx).1
  · exact Or.inl (by rw [hpun, hlinks]; exact List.mem_cons_self ..)
  · intro x
    unfold Queued
    rw [hmem, hipq]
    constructor
    · rintro (⟨hx, hne⟩ | hx)
      · refine ⟨Or.inl hx, ?_⟩
        rintro rfl
        exact hne ⟨rfl, hpun⟩
      · refine ⟨Or.inr hx, ?_⟩
        rintro rfl
        exact h.apart _ x (by rw [hpun, hlinks]; exact List.mem_cons_self ..) hx
    · rintro ⟨hx | hx, hne⟩
      · exact Or.inl ⟨hx, fun hp => hne hp.1⟩
      · exact Or.inr hx

/-- `take` gives a process that was queued. -/
theorem Lined.take (h : Lined sys q) (htake : q.take sys π = some (proc, q')) :
    Removes sys q q' proc ∧ sys.pun proc = π := by
  obtain ⟨q₁, hq₁, hl, hk, hiff⟩ := h.drain (π := π)
  rw [Queues.take, hq₁, Option.bind_some] at htake
  obtain ⟨hr, hpun⟩ := hl.pop htake
  refine ⟨⟨hr.lined, hr.kept.trans hk, (hiff proc).mp hr.was, fun x => ?_⟩, hpun⟩
  rw [hr.queued, hiff]

/-- `take1` gives a process that was queued, or none and what is queued stays. -/
theorem Lined.take1 (h : Lined sys q) {new : Option (Fin N)}
    (htake : q.take1 sys π = some (new, q')) :
    match new with
    | some proc => Removes sys q q' proc ∧ sys.pun proc = π
    | none => Lined sys q' ∧ q'.kept = q.kept ∧ ∀ x, Queued sys q' x ↔ Queued sys q x := by
  obtain ⟨q₁, hq₁, hl, hk, hiff⟩ := h.drain (π := π)
  simp only [Queues.take1, hq₁, Option.map_some, Option.some.injEq] at htake
  split at htake
  next =>
    cases htake
    exact ⟨hl, hk, hiff⟩
  next proc hhead =>
    split at htake
    next =>
      cases htake
      exact ⟨hl, hk, hiff⟩
    next next hnext =>
      cases htake
      have hpop : q₁.pop π = some (proc,
          { q₁ with head := Function.update q₁.head π (some next) }) := by
        simp [Queues.pop, hhead, hnext]
      obtain ⟨hr, hpun⟩ := hl.pop hpop
      refine ⟨⟨hr.lined, hr.kept.trans hk, (hiff proc).mp hr.was, fun x => ?_⟩, hpun⟩
      rw [hr.queued, hiff]

section Always

/-!
What holds whatever is enqueued: the loops keep the highest priority that is
queued, and as long as `kept` is set, everyone who is linked.
-/

theorem pri_le_refl (a : Nat) : pri_le a a = true := by
  simp [pri_le]

theorem pri_le_trans {a b c : Nat} (hab : pri_le a b = true) (hbc : pri_le b c = true) :
    pri_le a c = true := by
  simp only [pri_le, ge_iff_le, decide_eq_true_eq] at hab hbc ⊢
  exact hbc.trans hab

/-- Whoever is lost from a list by placing a process in it has its priority. -/
theorem placed_ge (hl : l.Pairwise (Ranked sys)) (proc : Fin N) {x : Fin N} (hx : x ∈ l) :
    ∃ y ∈ placed sys l proc, pri_le (sys.pri x) (sys.pri y) = true := by
  set go := fun curr => pri_le (sys.pri proc) (sys.pri curr) with hgo
  set before := (l.takeWhile go).takeWhile (· ≠ proc) with hbefore
  have hplaced : placed sys l proc = before ++ proc :: l.dropWhile go := rfl
  rw [← List.takeWhile_append_dropWhile (p := go) (l := l), List.mem_append] at hx
  rcases hx with hx | hx
  · rw [← List.takeWhile_append_dropWhile (p := (· ≠ proc)) (l := l.takeWhile go),
      List.mem_append] at hx
    rcases hx with hx | hx
    · exact ⟨x, hplaced ▸ List.mem_append_left _ hx, pri_le_refl _⟩
    · -- behind the old place of the process
      refine ⟨proc, hplaced ▸ List.mem_append_right _ List.mem_cons_self, ?_⟩
      have hsorted : ((l.takeWhile go).dropWhile (· ≠ proc)).Pairwise (Ranked sys) :=
        hl.sublist ((List.dropWhile_sublist _).trans (List.takeWhile_sublist _))
      have hfirst := List.head?_dropWhile_not (· ≠ proc) (l.takeWhile go)
      cases hrest : (l.takeWhile go).dropWhile (· ≠ proc) with
      | nil =>
          rw [hrest] at hx
          cases hx
      | cons y ys =>
          rw [hrest] at hx hsorted hfirst
          have hy : y = proc := by simpa using hfirst
          subst hy
          rcases List.mem_cons.mp hx with rfl | hx
          · exact pri_le_refl _
          · exact (List.pairwise_cons.mp hsorted).1 x hx
  · exact ⟨x, hplaced ▸ List.mem_append_right _ (List.mem_cons_of_mem _ hx), pri_le_refl _⟩

/-- An `enqueue0` that has not displaced anyone. -/
theorem enqueue0_keeps (hq : q.enqueue0 sys proc = some q') (hk : q'.kept = true) :
    q.kept = true ∧ Keeps sys q q' proc := by
  obtain ⟨⟨prev, curr⟩, -, rfl⟩ := Option.map_eq_some_iff.mp hq
  rw [Bool.and_eq_true, decide_eq_true_eq] at hk
  exact hk

/-- What is moved to the ready queue is removed from the other queue and
enqueued, one after the other. -/
theorem drain_induction {P : Queues N U → Prop}
    (hstep : ∀ q proc q₁ q₂, P q → q.ipq_remove π = some (proc, q₁) →
      q₁.enqueue0 sys proc = some q₂ → P q₂) {n : Nat}
    (hdrain : Queues.drain sys π n q = some q') (hP : P q) : P q' := by
  induction n generalizing q with
  | zero =>
      cases hdrain
      exact hP
  | succ n ih =>
      unfold Queues.drain at hdrain
      split at hdrain
      next =>
        cases hdrain
        exact hP
      next proc q₁ hrem =>
        obtain ⟨q₂, hq₂, hdrain⟩ := Option.bind_eq_some_iff.mp hdrain
        exact ih hdrain (hstep q proc q₁ q₂ hP hrem hq₂)

/-- The process was queued at the processor. -/
def At (q : Queues N U) (π : Fin U) (x : Fin N) : Prop := x ∈ q.links π ∨ x ∈ q.ipq π

/-- The processor's queues are merged in the ready queue of `q'`. -/
structure Merged (sys : Procs N U) (π : Fin U) (q q' : Queues N U) : Prop where
  chained : Chained sys q'
  ipq : q'.ipq π = []
  others : ∀ σ, σ ≠ π → q'.links σ = q.links σ ∧ q'.ipq σ = q.ipq σ
  came : ∀ x ∈ q'.links π, q.At π x
  above : ∀ x, q.At π x → ∃ y ∈ q'.links π, pri_le (sys.pri x) (sys.pri y) = true
  keeps : q'.kept = true → q.kept = true ∧ ∀ x, q.At π x → x ∈ q'.links π

theorem Chained.merged (h : Chained sys q) (π : Fin U) :
    ∃ q', Queues.drain sys π (q.ipq π).length q = some q' ∧ Merged sys π q q' := by
  obtain ⟨q', hdrain, hchained, hipq, hothers, hcame⟩ := h.drain π
  have hinv : Chained sys q' ∧
      (∀ x, q.At π x → ∃ y, q'.At π y ∧ pri_le (sys.pri x) (sys.pri y) = true) ∧
      (q'.kept = true → q.kept = true ∧ ∀ x, q.At π x → q'.At π x) := by
    refine drain_induction (P := fun q' => Chained sys q' ∧
      (∀ x, q.At π x → ∃ y, q'.At π y ∧ pri_le (sys.pri x) (sys.pri y) = true) ∧
      (q'.kept = true → q.kept = true ∧ ∀ x, q.At π x → q'.At π x)) ?_ hdrain
      ⟨h, fun x hx => ⟨x, hx, pri_le_refl _⟩, fun hk => ⟨hk, fun _ hx => hx⟩⟩
    rintro q₀ proc q₁ q₂ ⟨hc, hge, hkeep⟩ hrem henq
    obtain ⟨hc₁, hk₁, hlinks₁, rfl, rest, hipq₀, hipq₁⟩ := hc.ipq_remove hrem
    obtain ⟨q₂', henq', hc₂, hipq₂, hself, -, -⟩ := hc₁.enqueue0 proc
    obtain rfl := Option.some.inj (henq'.symm.trans henq)
    have hrest : q₂'.ipq (sys.pun proc) = rest := by
      rw [hipq₂, hipq₁, Function.update_self]
    have hproc : proc ∈ q₂'.links (sys.pun proc) := by
      rw [hself]
      unfold placed
      simp
    refine ⟨hc₂, fun x hx => ?_, fun hk => ?_⟩
    · obtain ⟨y, hy, hxy⟩ := hge x hx
      rcases hy with hy | hy
      · rw [← hlinks₁] at hy
        obtain ⟨z, hz, hyz⟩ := placed_ge (hc₁.sorted _) proc hy
        exact ⟨z, Or.inl (hself ▸ hz), pri_le_trans hxy hyz⟩
      · rw [hipq₀] at hy
        rcases List.mem_cons.mp hy with rfl | hy
        · exact ⟨y, Or.inl hproc, hxy⟩
        · exact ⟨y, Or.inr (hrest ▸ hy), hxy⟩
    · obtain ⟨hkept₁, hin, hall⟩ := enqueue0_keeps henq hk
      obtain ⟨hkept, hstay⟩ := hkeep (hk₁ ▸ hkept₁)
      refine ⟨hkept, fun x hx => ?_⟩
      rcases hstay x hx with hx | hx
      · exact Or.inl (hall _ x (hlinks₁ ▸ hx))
      · rw [hipq₀] at hx
        rcases List.mem_cons.mp hx with rfl | hx
        · exact Or.inl hin
        · exact Or.inr (hrest ▸ hx)
  have hlinked : ∀ x, q'.At π x → x ∈ q'.links π := by
    rintro x (hx | hx)
    · exact hx
    · rw [hipq] at hx
      cases hx
  obtain ⟨-, hge, hkeep⟩ := hinv
  refine ⟨q', hdrain, hchained, hipq, hothers, hcame, fun x hx => ?_, fun hk => ?_⟩
  · obtain ⟨y, hy, hxy⟩ := hge x hx
    exact ⟨y, hlinked y hy, hxy⟩
  · obtain ⟨hkept, hstay⟩ := hkeep hk
    exact ⟨hkept, fun x hx => hlinked x (hstay x hx)⟩

/-- `new` is taken from the queues of its processor, and `q'` is left. -/
structure Taken (sys : Procs N U) (π : Fin U) (q : Queues N U) (new : Fin N)
    (q' : Queues N U) : Prop where
  chained : Chained sys q'
  pun : sys.pun new = π
  ipq : q'.ipq π = []
  others : ∀ σ, σ ≠ π → q'.links σ = q.links σ ∧ q'.ipq σ = q.ipq σ
  came : ∀ x, x = new ∨ x ∈ q'.links π → q.At π x
  first : ∀ x ∈ q'.links π, x ≠ new ∧ pri_le (sys.pri x) (sys.pri new) = true
  above : ∀ x, q.At π x → pri_le (sys.pri x) (sys.pri new) = true
  keeps : q'.kept = true →
    q.kept = true ∧ ∀ x, q.At π x → x = new ∨ x ∈ q'.links π

theorem Merged.pop {q₁ : Queues N U} {new : Fin N} (h : Merged sys π q q₁)
    (hpop : q₁.pop π = some (new, q')) : Taken sys π q new q' := by
  obtain ⟨hchained, hkept, hipq, hpun, hlinks, hothers⟩ := h.chained.pop hpop
  have hsorted := h.chained.sorted π
  have hnodup := h.chained.nodup π
  rw [hlinks, List.pairwise_cons] at hsorted
  rw [hlinks, List.nodup_cons] at hnodup
  have hmem : ∀ x, x ∈ q₁.links π ↔ x = new ∨ x ∈ q'.links π := by
    intro x
    rw [hlinks, List.mem_cons]
  refine ⟨hchained, hpun, hipq ▸ h.ipq, fun σ hσ => ?_, fun x hx => h.came x ((hmem x).mpr hx),
    fun x hx => ⟨?_, hsorted.1 x hx⟩, fun x hx => ?_, fun hk => ?_⟩
  · rw [hothers σ hσ, hipq]
    exact h.others σ hσ
  · rintro rfl
    exact hnodup.1 hx
  · obtain ⟨y, hy, hxy⟩ := h.above x hx
    rcases (hmem y).mp hy with rfl | hy
    · exact hxy
    · exact pri_le_trans hxy (hsorted.1 y hy)
  · obtain ⟨hk', hall⟩ := h.keeps (hkept ▸ hk)
    exact ⟨hk', fun x hx => (hmem x).mp (hall x hx)⟩

/-- **`take`** gives the first in priority of all that are queued. -/
theorem Chained.take {new : Fin N} (h : Chained sys q) (htake : q.take sys π = some (new, q')) :
    Taken sys π q new q' := by
  obtain ⟨q₁, hq₁, hm⟩ := h.merged π
  rw [Queues.take, hq₁, Option.bind_some] at htake
  exact hm.pop htake

/-- It gives one if any is queued. -/
theorem Chained.take_isSome (h : Chained sys q) {x : Fin N} (hx : q.At π x) :
    ∃ r, q.take sys π = some r := by
  obtain ⟨q₁, hq₁, hm⟩ := h.merged π
  obtain ⟨y, hy, -⟩ := hm.above x hx
  have hhead := hm.chained.head_eq π
  cases hlinks : q₁.links π with
  | nil =>
      rw [hlinks] at hy
      cases hy
  | cons z zs =>
      rw [hlinks, List.head?_cons] at hhead
      refine ⟨(z, { q₁ with head := Function.update q₁.head π (q₁.next z) }), ?_⟩
      rw [Queues.take, hq₁, Option.bind_some, Queues.pop, hhead, Option.map_some]

/-- **`take1`** gives the first of at least two, or nobody when there are fewer. -/
theorem Chained.take1 {new : Option (Fin N)} (h : Chained sys q)
    (htake : q.take1 sys π = some (new, q')) :
    match new with
    | some proc => Taken sys π q proc q' ∧ q'.links π ≠ []
    | none => Merged sys π q q' ∧ (q'.links π).length ≤ 1 := by
  obtain ⟨q₁, hq₁, hm⟩ := h.merged π
  have hc := hm.chained.chain π
  simp only [Queues.take1, hq₁, Option.map_some, Option.some.injEq] at htake
  split at htake
  next hhead =>
    cases htake
    refine ⟨hm, ?_⟩
    have heq := hm.chained.head_eq π
    rw [hhead] at heq
    rw [List.head?_eq_none_iff.mp heq.symm]
    exact Nat.zero_le 1
  next proc hhead =>
    obtain ⟨rest, hlinks⟩ : ∃ rest, q₁.links π = proc :: rest := by
      have heq := hm.chained.head_eq π
      rw [hhead] at heq
      exact List.head?_eq_some_iff.mp heq.symm
    rw [hlinks] at hc
    split at htake
    next hnext =>
      cases htake
      refine ⟨hm, ?_⟩
      cases rest with
      | nil =>
          rw [hlinks]
          exact le_rfl
      | cons y ys =>
          exact absurd (hnext.symm.trans hc.2.1) (Option.some_ne_none y).symm
    next next hnext =>
      cases htake
      have hpop : q₁.pop π = some (proc,
          { q₁ with head := Function.update q₁.head π (some next) }) := by
        simp [Queues.pop, hhead, hnext]
      refine ⟨hm.pop hpop, ?_⟩
      obtain ⟨-, -, -, -, hlinks', -⟩ := hm.chained.pop hpop
      intro hnil
      rw [hnil, hlinks, List.cons.injEq] at hlinks'
      rw [hlinks'.2] at hc
      exact absurd (hnext.symm.trans hc.2) (Option.some_ne_none next)

end Always

end Queues

end Cxp
