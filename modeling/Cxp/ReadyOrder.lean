import Cxp.ReadyQueue
import Cxp.RunInduction
import Cxp.StableOrder
import Mathlib.Data.Fin.VecNotation
import Mathlib.Data.List.ReduceOption

/-!
# The ready queue as a stable priority queue (`sched.c`)

What the queues of a processor are for: processes come, from the processor
itself or from others, and the one of highest priority is taken, the earliest
among equals.  A `Pool` keeps them as they came.  The ready queue is those that
came from the processor itself, arranged by priority (`Desk.Follows`); those in
the interprocessor queue come next, when `take` has moved them over.
-/

namespace Cxp

open LinkedChain Queues Run StableOrder

/-- The operations on the queues of a processor. -/
inductive ReadyOp (N : Nat)
  | enqueue0 (p : Fin N)
  /-- another processor puts the process into the interprocessor queue -/
  | ipq_add (p : Fin N)
  | take

/-- Those that wait, as they came to the ready queue and to the interprocessor
queue; and what `take` has returned so far. -/
structure Pool (N : Nat) where
  ready : List (Fin N)
  coming : List (Fin N)
  taken : List (Option (Fin N))

/-- The lower, the higher the priority. -/
def Procs.rank {N U : Nat} (sys : Procs N U) (p : Fin N) : Nat := pri_value (sys.pri p)

namespace Pool

variable {N U : Nat} (sys : Procs N U) (s : Pool N)

/-- All that wait, in the order of their arrival. -/
def all : List (Fin N) := s.ready ++ s.coming

/-- A newcomer is the last one; the first in priority of all is taken. -/
def step (s : Pool N) : ReadyOp N → Pool N
  | .enqueue0 p => { s with ready := s.ready ++ [p] }
  | .ipq_add p => { s with coming := s.coming ++ [p] }
  | .take =>
      match arrange sys.rank s.all with
      | [] => { s with taken := s.taken ++ [none] }
      | p :: _ =>
          { ready := s.all.erase p
            coming := []
            taken := s.taken ++ [some p] }

/-- It is the earliest of those of the highest priority. -/
def First (p : Fin N) : Prop :=
  p ∈ s.all ∧ (∀ q ∈ s.all, pri_le (sys.pri q) (sys.pri p) = true) ∧
    (ofKey sys.rank s.all (sys.rank p)).head? = some p

end Pool

/-- The queues; who has come to those of the processor, and what `take` has
returned. -/
structure Desk (N U : Nat) where
  queues : Queues N U
  came : List (Fin N)
  taken : List (Option (Fin N))

namespace Desk

variable {N U : Nat} (sys : Procs N U) (π : Fin U) (s : Desk N U)

/-- A process of the processor, that is not linked yet; and another processor
waits until there is room. -/
def Admits : ReadyOp N → Prop
  | .enqueue0 p => sys.pun p = π ∧ ¬ Queued sys s.queues p
  | .ipq_add p =>
      sys.pun p = π ∧ ¬ Queued sys s.queues p ∧ (s.queues.ipq π).length < QSIZE - 1
  | .take => True

instance (op : ReadyOp N) : Decidable (s.Admits sys π op) := by
  unfold Admits
  split <;> infer_instance

/-- `take` returns NULL when the ready queue is empty. -/
def take : Option (Desk N U) :=
  (drain sys π (s.queues.ipq π).length s.queues).map fun queues =>
    match queues.pop π with
    | none => { s with queues := queues, taken := s.taken ++ [none] }
    | some (p, queues) => { s with queues := queues, taken := s.taken ++ [some p] }

def step (s : Desk N U) (op : ReadyOp N) : Option (Desk N U) :=
  if s.Admits sys π op then
    match op with
    | .enqueue0 p =>
        (s.queues.enqueue0 sys p).map fun queues =>
          { s with queues := queues, came := s.came ++ [p] }
    | .ipq_add p =>
        (s.queues.ipq_add π p).map fun queues =>
          { s with queues := queues, came := s.came ++ [p] }
    | .take => s.take sys π
  else none

/-- The queues are those of the pool, the ready queue by priority. -/
structure Follows (g : Pool N) : Prop where
  lined : Lined sys s.queues
  links : s.queues.links π = arrange sys.rank g.ready
  ipq : s.queues.ipq π = g.coming
  taken : s.taken = g.taken
  conserved : s.came.Perm (s.taken.reduceOption ++ g.all)

end Desk

section Placing

variable {N U : Nat} {sys : Procs N U} {q q' : Queues N U} {π : Fin U} {p : Fin N}
  {l : List (Fin N)}

/-- A process that is not there yet is put behind those of its priority. -/
theorem placed_eq_place (hp : p ∉ l) : placed sys l p = place sys.rank l p := by
  have hp' : p ∉ l.takeWhile fun curr => pri_le (sys.pri p) (sys.pri curr) :=
    fun hmem => hp ((List.takeWhile_sublist _).subset hmem)
  unfold placed
  rw [takeWhile_ne_of_notMem hp']
  rfl

theorem enqueue0_links (h : Lined sys q) (hp : ¬ Queued sys q p)
    (hq : q.enqueue0 sys p = some q') :
    Lined sys q' ∧ q'.ipq = q.ipq ∧
      q'.links (sys.pun p) = place sys.rank (q.links (sys.pun p)) p := by
  obtain ⟨q₁, hq₁, hipq, ha⟩ := h.enqueue0 hp
  obtain ⟨q₂, hq₂, -, -, hself, -, -⟩ := h.toChained.enqueue0 p
  obtain rfl := Option.some.inj (hq₁.symm.trans hq)
  obtain rfl := Option.some.inj (hq₁.symm.trans hq₂)
  rw [placed_eq_place (h.not_mem_links hp _)] at hself
  exact ⟨ha.lined, hipq, hself⟩

/-- No process is queued anywhere. -/
def noQueues (N U : Nat) : Queues N U where
  next := fun _ => none
  head := fun _ => none
  ipq := fun _ => []
  kept := true

theorem lined_noQueues (sys : Procs N U) : Lined sys (noQueues N U) := by
  have hlinks : ∀ π, (noQueues N U).links π = [] := fun π => rfl
  refine ⟨⟨?_, ?_, ?_, ?_⟩, ?_, ?_⟩
  · intro π
    rw [hlinks]
    rfl
  · simp [hlinks]
  · simp [hlinks]
  · simp [noQueues]
  · simp [noQueues]
  · simp [hlinks]

/-- The loop of `take` puts the entries of the interprocessor queue in their places,
one after the other. -/
theorem drain_links (h : Lined sys q) :
    ∃ q', drain sys π (q.ipq π).length q = some q' ∧ Lined sys q' ∧ q'.ipq π = [] ∧
      q'.links π = (q.ipq π).foldl (place sys.rank) (q.links π) := by
  obtain ⟨q', hdrain, -, hempty, -, -⟩ := h.toChained.drain π
  have hinv : Lined sys q' ∧ (q'.ipq π).foldl (place sys.rank) (q'.links π) =
      (q.ipq π).foldl (place sys.rank) (q.links π) := by
    apply drain_induction (P := fun q' => Lined sys q' ∧
      (q'.ipq π).foldl (place sys.rank) (q'.links π) =
        (q.ipq π).foldl (place sys.rank) (q.links π)) _ hdrain ⟨h, rfl⟩
    intro q₀ p q₁ q₂ hq₀ hrem henq
    obtain ⟨hl, heq⟩ := hq₀
    obtain ⟨hr, hpun, hipq⟩ := hl.ipq_remove hrem
    obtain ⟨-, -, hlinks₁, -, -⟩ := hl.toChained.ipq_remove hrem
    have hout : ¬ Queued sys q₁ p := fun hq => ((hr.queued p).mp hq).2 rfl
    obtain ⟨hl₂, hipq₂, hlinks₂⟩ := enqueue0_links hr.lined hout henq
    refine ⟨hl₂, ?_⟩
    rw [← heq, hipq, List.foldl_cons, hipq₂, ← hpun, hlinks₂, hlinks₁]
  refine ⟨q', hdrain, hinv.1, hempty, ?_⟩
  rw [← hinv.2, hempty]
  rfl

end Placing

namespace Desk

variable {N U : Nat} {sys : Procs N U} {π : Fin U} {s t : Desk N U} {g : Pool N} {p : Fin N}

/-- What an operation does to the queues: who is enqueued gets a place, who comes
from elsewhere goes behind the others that do, and the first of all is taken. -/
def Serves (sys : Procs N U) (π : Fin U) (s : Desk N U) (g : Pool N) (t : Desk N U) :
    ReadyOp N → Prop
  | .enqueue0 p =>
      (∃ l m, s.queues.links π = l ++ m ∧ t.queues.links π = l ++ p :: m) ∧
        t.queues.ipq π = s.queues.ipq π ∧ t.taken = s.taken
  | .ipq_add p =>
      t.queues.links π = s.queues.links π ∧ t.queues.ipq π = s.queues.ipq π ++ [p] ∧
        t.taken = s.taken
  | .take =>
      t.queues.ipq π = [] ∧
        ((g.all = [] ∧ t.queues.links π = [] ∧ t.taken = s.taken ++ [none]) ∨
          ∃ p, g.First sys p ∧ (p :: t.queues.links π).Perm g.all ∧
            t.taken = s.taken ++ [some p])

theorem Follows.enqueue0 (h : s.Follows sys π g) (hadm : s.Admits sys π (.enqueue0 p)) :
    ∃ t, s.step sys π (.enqueue0 p) = some t ∧ t.Follows sys π (g.step sys (.enqueue0 p)) ∧
      Serves sys π s g t (.enqueue0 p) := by
  obtain ⟨hpun, hout⟩ := id hadm
  obtain ⟨q', hq', -, -⟩ := h.lined.enqueue0 hout
  obtain ⟨hlined, hipq, hlinks⟩ := enqueue0_links h.lined hout hq'
  rw [hpun] at hlinks
  refine ⟨{ s with queues := q', came := s.came ++ [p] }, ?_, ⟨hlined, ?_, ?_, h.taken, ?_⟩,
    ⟨⟨_, _, List.takeWhile_append_dropWhile.symm, hlinks⟩, ?_, rfl⟩⟩
  · simp only [Desk.step, if_pos hadm, hq', Option.map_some]
  · simp only [Pool.step]
    rw [hlinks, h.links, arrange_concat]
  · simp only [Pool.step]
    rw [hipq, h.ipq]
  · simp only [Pool.step, Pool.all]
    have hmove : (s.taken.reduceOption ++ (g.ready ++ [p] ++ g.coming)).Perm
        ((s.taken.reduceOption ++ (g.ready ++ g.coming)) ++ [p]) := by
      grind
    exact (h.conserved.append_right [p]).trans hmove.symm
  · simp only
    rw [hipq]

theorem Follows.ipq_add (h : s.Follows sys π g) (hadm : s.Admits sys π (.ipq_add p)) :
    ∃ t, s.step sys π (.ipq_add p) = some t ∧ t.Follows sys π (g.step sys (.ipq_add p)) ∧
      Serves sys π s g t (.ipq_add p) := by
  obtain ⟨hpun, hout, hroom⟩ := id hadm
  obtain ⟨q', hq'⟩ : ∃ q', s.queues.ipq_add π p = some q' := by
    unfold Queues.ipq_add
    rw [if_pos hroom]
    exact ⟨_, rfl⟩
  have hq'' : s.queues.ipq_add (sys.pun p) p = some q' := by rw [hpun, hq']
  have ha := h.lined.ipq_add hout hq''
  obtain ⟨-, -, hlinks, hipq⟩ := h.lined.toChained.ipq_add hq''
  have hself : q'.ipq π = s.queues.ipq π ++ [p] := by
    rw [hipq, hpun, Function.update_self]
  refine ⟨{ s with queues := q', came := s.came ++ [p] }, ?_,
    ⟨ha.lined, ?_, ?_, h.taken, ?_⟩, ⟨?_, hself, rfl⟩⟩
  · simp only [Desk.step, if_pos hadm, hq', Option.map_some]
  · simp only [Pool.step]
    rw [hlinks, h.links]
  · simp only [Pool.step]
    rw [hself, h.ipq]
  · simp only [Pool.step, Pool.all]
    rw [← List.append_assoc, ← List.append_assoc]
    apply List.Perm.append_right
    rw [List.append_assoc]
    exact h.conserved
  · simp only
    rw [hlinks]

theorem Follows.take (h : s.Follows sys π g) :
    ∃ t, s.step sys π .take = some t ∧ t.Follows sys π (g.step sys .take) ∧
      Serves sys π s g t .take := by
  obtain ⟨q', hdrain, hlined, hempty, hlinks⟩ := drain_links (π := π) h.lined
  have hall : q'.links π = arrange sys.rank g.all := by
    rw [hlinks, h.links, h.ipq, ← arrange_append]
    rfl
  have hhead := hlined.toChained.head_eq π
  have hadm : s.Admits sys π .take := trivial
  cases hpop : q'.pop π with
  | none =>
      have hnil : q'.links π = [] := by
        rw [Option.map_eq_none_iff.mp hpop] at hhead
        exact List.head?_eq_none_iff.mp hhead.symm
      have hg : g.all = [] := by
        have hperm : (arrange sys.rank g.all).Perm g.all := arrange_perm g.all
        rw [← hall, hnil] at hperm
        exact hperm.nil_eq.symm
      obtain ⟨hready, hcoming⟩ := List.append_eq_nil_iff.mp hg
      have hstep : g.step sys .take = { g with taken := g.taken ++ [none] } := by
        simp only [Pool.step, ← hall, hnil]
      rw [hstep]
      refine ⟨{ s with queues := q', taken := s.taken ++ [none] }, ?_,
        ⟨hlined, ?_, ?_, ?_, ?_⟩, hempty, Or.inl ⟨hg, hnil, rfl⟩⟩
      · simp only [Desk.step, if_pos hadm, Desk.take, hdrain, Option.map_some, hpop]
      · simp only
        rw [hnil, hready]
        rfl
      · simp only
        rw [hempty, hcoming]
      · simp only
        rw [h.taken]
      · simp only [List.reduceOption_append, List.reduceOption_singleton, Option.toList_none,
          List.append_nil]
        exact h.conserved
  | some r =>
      obtain ⟨p, q''⟩ := r
      obtain ⟨hr, hpun⟩ := hlined.pop hpop
      obtain ⟨-, -, hipq, -, hcons, -⟩ := hlined.toChained.pop hpop
      rw [hall] at hcons
      have hfirst : g.First sys p := by
        obtain ⟨hleast, hearliest⟩ := arrange_cons hcons
        have hmem : p ∈ arrange sys.rank g.all := by
          rw [hcons]
          exact List.mem_cons_self
        refine ⟨mem_arrange.mp hmem, ?_, hearliest⟩
        · intro q hq
          exact decide_eq_true (hleast q hq)
      have hrest : q''.links π = arrange sys.rank (g.all.erase p) := by
        have herase : (arrange sys.rank g.all).eraseP (p == ·) =
            arrange sys.rank (g.all.eraseP (p == ·)) := by
          apply arrange_eraseP (k := sys.rank p)
          intro q hq
          rw [beq_iff_eq.mp hq]
        rw [hcons, List.eraseP_cons_of_pos (by simp)] at herase
        rw [herase, List.erase_eq_eraseP]
      have hstep : g.step sys .take =
          { ready := g.all.erase p, coming := [], taken := g.taken ++ [some p] } := by
        simp only [Pool.step, hcons]
      rw [hstep]
      have hperm : (p :: g.all.erase p).Perm g.all := (List.perm_cons_erase hfirst.1).symm
      refine ⟨{ s with queues := q'', taken := s.taken ++ [some p] }, ?_,
        ⟨hr.lined, hrest, ?_, ?_, ?_⟩, ?_, Or.inr ⟨p, hfirst, ?_, rfl⟩⟩
      · simp only [Desk.step, if_pos hadm, Desk.take, hdrain, Option.map_some, hpop]
      · simp only
        rw [hipq, hempty]
      · simp only
        rw [h.taken]
      · simp only [Pool.all, List.reduceOption_append, List.reduceOption_singleton,
          List.append_nil, List.append_assoc]
        apply h.conserved.trans
        apply List.Perm.append_left
        exact hperm.symm
      · simp only
        rw [hipq, hempty]
      · simp only
        rw [hrest]
        exact ((arrange_perm _).cons p).trans hperm

/-- **Every operation** ends, and does to the queues what it does to the pool. -/
theorem Follows.step {op : ReadyOp N} (h : s.Follows sys π g) (hadm : s.Admits sys π op) :
    ∃ t, s.step sys π op = some t ∧ t.Follows sys π (g.step sys op) ∧
      Serves sys π s g t op := by
  cases op with
  | enqueue0 p => exact h.enqueue0 hadm
  | ipq_add p => exact h.ipq_add hadm
  | take => exact h.take

theorem Follows.run {ops : List (ReadyOp N)} (h : s.Follows sys π g)
    (hrun : exec (Desk.step sys π) s ops = some t) :
    t.Follows sys π (ops.foldl (Pool.step sys) g) := by
  induction ops generalizing s g with
  | nil =>
      cases hrun
      exact h
  | cons op ops ih =>
      obtain ⟨m, hm, hrest⟩ := exec_cons hrun
      have hadm : s.Admits sys π op := by
        by_contra hnot
        simp only [Desk.step, if_neg hnot] at hm
        cases hm
      obtain ⟨m', hm', hfollows, -⟩ := h.step hadm
      obtain rfl : m = m' := Option.some.inj (hm.symm.trans hm')
      exact ih hfollows hrest

/-- Queues in order, as a start. -/
theorem follows_of_lined {q : Queues N U} (h : Lined sys q) :
    Desk.Follows sys π ⟨q, q.links π ++ q.ipq π, []⟩ ⟨q.links π, q.ipq π, []⟩ := by
  refine ⟨h, ?_, rfl, rfl, ?_⟩
  · apply eq_arrange_iff.mpr
    refine ⟨?_, fun _ => rfl⟩
    exact (h.sorted π).imp fun hranked => of_decide_eq_true hranked
  · exact List.Perm.refl _

end Desk

/-- **The ready queue is a stable priority queue.**  After any operations it is in
the order of priority, and those of one priority stand in it as they came; whoever
came has been taken once or is queued once; and the next operation ends, and does
what it is to do: `take` gives the earliest of the highest priority, with those
from the interprocessor queue behind the others. -/
theorem ready_queue_stable {N U : Nat} (sys : Procs N U) (π : Fin U) (q : Queues N U)
    (hq : Lined sys q) (ops : List (ReadyOp N)) (s : Desk N U)
    (hrun : exec (Desk.step sys π) ⟨q, q.links π ++ q.ipq π, []⟩ ops = some s) :
    let g := ops.foldl (Pool.step sys) ⟨q.links π, q.ipq π, []⟩
    (InOrder sys.rank (s.queues.links π) ∧
      ∀ rank, ofKey sys.rank (s.queues.links π) rank = ofKey sys.rank g.ready rank) ∧
    s.queues.ipq π = g.coming ∧ s.taken = g.taken ∧
    s.came.Perm (s.taken.reduceOption ++ (s.queues.links π ++ s.queues.ipq π)) ∧
    ∀ op, s.Admits sys π op → ∃ t, s.step sys π op = some t ∧ Desk.Serves sys π s g t op := by
  intro g
  have hfollows : s.Follows sys π g := (Desk.follows_of_lined hq).run hrun
  refine ⟨eq_arrange_iff.mp hfollows.links, hfollows.ipq, hfollows.taken, ?_, ?_⟩
  · rw [hfollows.links, hfollows.ipq]
    apply hfollows.conserved.trans
    apply List.Perm.append_left
    exact ((arrange_perm g.ready).append_right g.coming).symm
  · intro op hadm
    obtain ⟨t, hstep, -, hserves⟩ := hfollows.step hadm
    exact ⟨t, hstep, hserves⟩

/-- Two processes of one priority value, of different levels, and one above them. -/
def twoLevels : Procs 5 1 where
  pun := fun _ => 0
  pri := ![INIT_PRI, IDLE_PRI, 0x2200, 0x4200, 0x2000]
  initial := 0
  idler := fun _ => 1
  pri_initial := rfl
  pun_idler := pun_single
  pri_idler := by decide

/-- One of the two, and the one above them, come from another processor. -/
def fiveCome : List (ReadyOp 5) :=
  [.enqueue0 1, .ipq_add 3, .enqueue0 2, .ipq_add 4, .take, .take, .take, .take, .take]

theorem ready_queue_stable_five :
    ∃ s, exec (Desk.step twoLevels 0) ⟨noQueues 5 1, [], []⟩ fiveCome = some s ∧
      s.taken = [some 4, some 2, some 3, some 1, none] := by
  have hsome : (exec (Desk.step twoLevels 0) ⟨noQueues 5 1, [], []⟩ fiveCome).isSome := by
    decide
  obtain ⟨s, hs⟩ := Option.isSome_iff_exists.mp hsome
  have hstable := ready_queue_stable twoLevels 0 _ (lined_noQueues twoLevels) fiveCome s hs
  refine ⟨s, hs, hstable.2.2.1.trans ?_⟩
  decide

end Cxp
