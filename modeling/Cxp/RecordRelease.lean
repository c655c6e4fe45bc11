import Cxp.MemoryArena
import Cxp.PriorityGuarantees
import Cxp.ProcessStanding
import Cxp.SchedulerGuarantees
import Mathlib.Data.Fin.VecNotation

/-!
# The release of process records (`sched.c`, `memory.c`, `hardware.c`)

The scheduler with the blocks that hold its process records.  A record is taken
from `allocate_mem` when a child is built, and `finish_termination` gives it back
with `release_mem` before it disables interrupts.

* The first word of a record is `stackptr`, and that of a free block is `next`.
  A context is saved where `stackptr` points to: in the record itself as long as
  its block is held, and in the next free block of the list once it is released.
* The termination stack of a processor has one user at a time.  Timeout
  descriptors have a list of their own (`TMO_INDEX`) and are left out.
-/

namespace Cxp

open LinkedChain Queues Run

namespace Sched

variable {N U : Nat} (sys : Procs N U) (s : Sched N U)

/-- `schedule0(proc)` switches to the process. -/
def switches (π : Fin U) (proc : Fin N) : Bool :=
  sys.pun proc = π ∧ pri_le (sys.pri proc) (sys.pri (s.current π)) = false

/-- Whose context the step saves: that of a process that is interrupted, is
switched away from, or turns to the termination stack. -/
def saver : SchedAct N U → Option (Fin N)
  | .interrupt π _ => some (s.current π)
  | .yield p =>
      match s.queues.take1 sys (sys.pun p) with
      | some (some _, _) => some p
      | _ => none
  | .run p =>
      match (s.live p).op, (s.live p).code with
      | .schedule q, _ => if s.switches sys (sys.pun p) q then some p else none
      | .none, .relinquish _ | .none, .ending => some p
      | _, _ => none
  | .handle π =>
      match (s.live (s.current π)).inside, s.queues.ipq_remove π with
      | some .interproc, some (proc, _) =>
          if s.switches sys π proc then some (s.current π) else none
      | _, _ => none
  | _ => none

end Sched

/-- The scheduler and the records.  `past` tells who is behind the `release_mem`
of `finish_termination`, and `claimed` whose termination structure is in use.
`released` and `ended` are histories: who has released its record, and who has
made its last step.  `spoilt` holds the blocks that a context has been saved to by
way of a released record. -/
structure Records (N U : Nat) where
  sched : Sched N U
  arena : Arena
  record : Fin N → Nat
  claimed : Fin U → Bool
  past : Fin N → Bool
  released : List (Fin N)
  ended : List (Fin N)
  spoilt : List Nat

/-- What happens next. -/
inductive RecordAct (N U : Nat)
  /-- `finish_termination` calls `release_mem` -/
  | release (p : Fin N)
  /-- a step of the scheduler; a context that it saves begins with the word -/
  | sched (act : SchedAct N U) (word : Option Nat)

namespace Records

variable {N U : Nat} (sys : Procs N U) (index : Fin N → MemIndex) (s : Records N U)

/-- The block is on a free list. -/
def Free (addr : Nat) : Prop :=
  ∃ i l, Chain s.arena.mem.link (s.arena.mem.procmemlist i) l ∧ addr ∈ l

/-- Take a block for the record of the process. -/
def build_process (p : Fin N) : Option (Records N U) :=
  (allocate_mem s.arena.mem (index p)).map fun r =>
    { s with
      arena := ⟨r.2, (index p, r.1) :: s.arena.held⟩
      record := Function.update s.record p r.1 }

/-- Give back the record of the process. -/
def release (p : Fin N) : Records N U :=
  { s with
    arena := ⟨release_mem s.arena.mem (index p) (s.record p),
      s.arena.held.erase (index p, s.record p)⟩
    past := Function.update s.past p true
    released := p :: s.released }

/-- Save the context of the process where its `stackptr` points to. -/
def save (p : Fin N) (word : Option Nat) : Option (Records N U) :=
  if (index p, s.record p) ∈ s.arena.held then some s
  else
    (s.arena.mem.link (s.record p)).map fun addr =>
      { s with
        arena := ⟨{ s.arena.mem with
          link := Function.update s.arena.mem.link addr word }, s.arena.held⟩
        spoilt := addr :: s.spoilt }

/-- Save the context that the step saves, if any. -/
def saves (act : SchedAct N U) (word : Option Nat) : Option (Records N U) :=
  match s.sched.saver sys act with
  | some p => s.save index p word
  | none => some s

/-- The step is possible where the process stands: the termination structure is
claimed first, and interrupts are disabled after the record has been released. -/
def Admits : SchedAct N U → Prop
  | .run p =>
      (s.sched.live p).op = .none →
        ((s.sched.live p).code = .ending → s.claimed (sys.pun p) = false) ∧
          ((s.sched.live p).code = .finishing → s.past p = true)
  | .yield p => (s.sched.live p).code = .finishing → s.past p = false
  | _ => True

instance (act : SchedAct N U) : Decidable (s.Admits sys act) := by
  unfold Admits
  split <;> infer_instance

/-- What the step does beside what the scheduler does. -/
def account : SchedAct N U → Option (Records N U)
  | .build _ child => s.build_process index child
  | .run p =>
      match (s.sched.live p).op, (s.sched.live p).code with
      | .none, .ending =>
          some { s with claimed := Function.update s.claimed (sys.pun p) true }
      | .none, .finishing =>
          some { s with
            claimed := Function.update s.claimed (sys.pun p) false
            ended := p :: s.ended }
      | _, _ => some s
  | _ => some s

def step : RecordAct N U → Option (Records N U)
  | .release p =>
      if s.sched.May sys p (· = .finishing) ∧ s.past p = false then
        some (s.release index p)
      else none
  | .sched act word =>
      if s.Admits sys act then do
        let sched ← s.sched.step sys act
        let s ← s.saves sys index act word
        let s ← s.account sys index act
        return { s with sched := sched }
      else none

/-- After `memory_init`. -/
def start (base total : Nat) : Records N U where
  sched := Sched.init sys
  arena := Arena.start base total
  record := fun _ => base
  claimed := fun _ => false
  past := fun _ => false
  released := []
  ended := []
  spoilt := []

/-- Build the records of the initial process and of the idle ones. -/
def first_records (base total : Nat) : Option (Records N U) :=
  (sys.initial :: List.ofFn sys.idler).foldlM (build_process index)
    (start sys base total)

/-- Nobody uses a free record but a processor that is about to switch away from
it, no context has been saved in one, and each is released once when its process
comes to its end. -/
structure Reclaimed : Prop where
  linked : ∀ π p, p ∈ s.sched.queues.links π ∨ p ∈ s.sched.queues.ipq π →
    ¬ s.Free (s.record p)
  unwritten : s.spoilt = []
  once : ∀ p, s.released.count p ≤ 1 ∧ (p ∈ s.ended → s.released.count p = 1)

/-- A record is free only when nothing uses it. -/
structure FreeUnused : Prop extends Reclaimed s where
  current : ∀ π, s.sched.Enabled π → ¬ s.Free (s.record (s.sched.current π))

/-- A current process whose record is free is in `finish_termination`, behind the
release. -/
def InWindow : Prop :=
  ∀ π, s.sched.Enabled π → s.Free (s.record (s.sched.current π)) →
    s.past (s.sched.current π) = true ∧
      (s.sched.live (s.sched.current π)).code = .finishing

/-- The step releases no record. -/
def KeepsRecords : RecordAct N U → Prop
  | .release _ => False
  | .sched _ _ => True

/-- Nobody in its window is both preempted and scheduled, and no interrupt comes
between the release and the last step of a process. -/
def Undisturbed : RecordAct N U → Prop
  | .release _ => True
  | .sched act _ =>
      s.sched.Orderly sys act ∧
        ∀ π i, act = .interrupt π i → s.past (s.sched.current π) = false

/-- Each of the processes has a block of its own, that is held. -/
structure Housed (P : Fin N → Prop) : Prop where
  held : ∀ p, P p → (index p, s.record p) ∈ s.arena.held
  alone : ∀ p q, P p → P q → s.record p = s.record q → p = q

section Blocks

variable {sys : Procs N U} {index : Fin N → MemIndex} {s t m : Records N U} {base : Nat}
  {free : MemIndex → List Nat} {act : SchedAct N U} {p q : Fin N} {word : Option Nat}
  {P Q : Fin N → Prop}

theorem Housed.mono (h : s.Housed index P) (harena : t.arena = s.arena)
    (hrecord : t.record = s.record) (hQ : ∀ p, Q p → P p) : t.Housed index Q := by
  constructor
  · intro p hp
    rw [harena, hrecord]
    exact h.held p (hQ p hp)
  · intro p q hp hq heq
    rw [hrecord] at heq
    exact h.alone p q (hQ p hp) (hQ q hq) heq

/-- A block that is held is on no free list. -/
theorem not_free_of_held (hL : Layout base s.arena free) {i : MemIndex} {addr : Nat}
    (hheld : (i, addr) ∈ s.arena.held) : ¬ s.Free addr := by
  intro hfree
  obtain ⟨j, l, hc, hmem⟩ := hfree
  rw [hc.unique (hL.chain j)] at hmem
  exact (hL.apart.held_free _ hheld j addr hmem).ne rfl

/-- A block that is handed out is another one than those that are held. -/
theorem allocate_fresh (hL : Layout base s.arena free) {i : MemIndex} {addr : Nat}
    {mem : Memory} (halloc : allocate_mem s.arena.mem i = some (addr, mem)) :
    (∃ free', Layout base ⟨mem, (i, addr) :: s.arena.held⟩ free') ∧
      ∀ b ∈ s.arena.held, b.2 ≠ addr := by
  have hstep : s.arena.step (.allocate i) = some ⟨mem, (i, addr) :: s.arena.held⟩ := by
    simp [Arena.step, halloc]
  obtain ⟨free', hL'⟩ := hL.step hstep
  refine ⟨⟨free', hL'⟩, ?_⟩
  intro b hb
  have happart := (List.pairwise_cons.mp hL'.apart.held_apart).1 b hb
  exact happart.ne.symm

/-- One more process gets a block. -/
theorem Housed.build {i : Fin N} {addr : Nat} {mem : Memory} (h : s.Housed index P)
    (hL : Layout base s.arena free)
    (halloc : allocate_mem s.arena.mem (index i) = some (addr, mem))
    (harena : t.arena = ⟨mem, (index i, addr) :: s.arena.held⟩)
    (hrecord : t.record = Function.update s.record i addr)
    (hQ : ∀ p, Q p → p ≠ i → P p) : t.Housed index Q := by
  obtain ⟨-, hfresh⟩ := allocate_fresh hL halloc
  have hother : ∀ p, Q p → p ≠ i → t.record p = s.record p ∧ s.record p ≠ addr := by
    intro p hp hpi
    refine ⟨?_, hfresh _ (h.held p (hQ p hp hpi))⟩
    rw [hrecord, Function.update_of_ne hpi]
  have hself : t.record i = addr := by
    rw [hrecord, Function.update_self]
  constructor
  · intro p hp
    rw [harena]
    by_cases hpi : p = i
    · subst hpi
      rw [hself]
      exact List.mem_cons_self
    · rw [(hother p hp hpi).1]
      exact List.mem_cons_of_mem _ (h.held p (hQ p hp hpi))
  · intro p q hp hq heq
    by_cases hpi : p = i
    · by_cases hqi : q = i
      · rw [hpi, hqi]
      · rw [hpi, hself, (hother q hq hqi).1] at heq
        exact absurd heq.symm (hother q hq hqi).2
    · rw [(hother p hp hpi).1] at heq
      by_cases hqi : q = i
      · rw [hqi, hself] at heq
        exact absurd heq (hother p hp hpi).2
      · rw [(hother q hq hqi).1] at heq
        exact h.alone p q (hQ p hp hpi) (hQ q hq hqi) heq

/-- As long as nothing has been released, blocks are carved. -/
theorem allocate_lists {i : MemIndex} {addr : Nat} {mem : Memory}
    (hlists : ∀ j, s.arena.mem.procmemlist j = none)
    (halloc : allocate_mem s.arena.mem i = some (addr, mem)) (j : MemIndex) :
    mem.procmemlist j = none := by
  unfold allocate_mem at halloc
  rw [hlists i] at halloc
  simp only at halloc
  split at halloc
  · cases halloc
    exact hlists j
  · cases halloc

/-- What a step does to the records: a child that is built gets one, and nothing
else happens to them. -/
theorem account_cases (h : s.account sys index act = some m) :
    (m.past = s.past ∧ m.released = s.released ∧ m.spoilt = s.spoilt) ∧
      ((∃ p child addr mem, act = .build p child ∧
          allocate_mem s.arena.mem (index child) = some (addr, mem) ∧
          m.arena = ⟨mem, (index child, addr) :: s.arena.held⟩ ∧
          m.record = Function.update s.record child addr) ∨
        (∀ p child, act ≠ .build p child) ∧ m.arena = s.arena ∧ m.record = s.record) ∧
      (m.ended = s.ended ∨ ∃ p, s.sched.Ends act p ∧ m.ended = p :: s.ended) := by
  cases act with
  | build p child =>
      obtain ⟨⟨addr, mem⟩, halloc, rfl⟩ := Option.map_eq_some_iff.mp h
      exact ⟨⟨rfl, rfl, rfl⟩, Or.inl ⟨p, child, addr, mem, rfl, halloc, rfl, rfl⟩,
        Or.inl rfl⟩
  | run p =>
      simp only [account] at h
      split at h
      · cases h
        exact ⟨⟨rfl, rfl, rfl⟩, Or.inr ⟨by simp, rfl, rfl⟩, Or.inl rfl⟩
      · rename_i hop hcode
        cases h
        exact ⟨⟨rfl, rfl, rfl⟩, Or.inr ⟨by simp, rfl, rfl⟩,
          Or.inr ⟨p, ⟨rfl, hop, hcode⟩, rfl⟩⟩
      · cases h
        exact ⟨⟨rfl, rfl, rfl⟩, Or.inr ⟨by simp, rfl, rfl⟩, Or.inl rfl⟩
  | _ =>
      cases h
      exact ⟨⟨rfl, rfl, rfl⟩, Or.inr ⟨by simp, rfl, rfl⟩, Or.inl rfl⟩

theorem sched_admits (hstep : s.step sys index (.sched act word) = some t) :
    s.Admits sys act ∧ ∃ sched, s.sched.step sys act = some sched := by
  obtain ⟨hadm, hstep⟩ := Option.ite_none_right_eq_some.mp hstep
  obtain ⟨sched, hsched, -⟩ := Option.bind_eq_some_iff.mp hstep
  exact ⟨hadm, sched, hsched⟩

/-- A step in which a context is saved, if any, in a record that is held. -/
theorem step_sched (hstep : s.step sys index (.sched act word) = some t)
    (hheld : ∀ p, s.sched.saver sys act = some p → (index p, s.record p) ∈ s.arena.held) :
    s.sched.step sys act = some t.sched ∧
      ∃ m, s.account sys index act = some m ∧ t = { m with sched := t.sched } := by
  obtain ⟨-, hstep⟩ := Option.ite_none_right_eq_some.mp hstep
  obtain ⟨sched, hsched, hstep⟩ := Option.bind_eq_some_iff.mp hstep
  obtain ⟨s', hsave, hstep⟩ := Option.bind_eq_some_iff.mp hstep
  obtain ⟨m, hm, hstep⟩ := Option.bind_eq_some_iff.mp hstep
  cases hstep
  refine ⟨hsched, m, ?_, rfl⟩
  unfold saves at hsave
  cases hsav : s.sched.saver sys act with
  | none =>
      rw [hsav] at hsave
      cases hsave
      exact hm
  | some p =>
      simp only [hsav, save, if_pos (hheld p hsav)] at hsave
      cases hsave
      exact hm

end Blocks

end Records

namespace Sched

variable {N U : Nat} {sys : Procs N U} {s t : Sched N U} {act : SchedAct N U} {p : Fin N}

/-- Whose context is saved: a current process, that has not come to the last step
of its termination unless it is interrupted. -/
theorem saver_cases (hstep : s.step sys act = some t) (hsav : s.saver sys act = some p) :
    ∃ π, s.current π = p ∧ ((∃ i, act = .interrupt π i) ∨ (s.live p).inside ≠ none ∨
      act = .yield p ∨ act = .run p ∧
        ((s.live p).op ≠ .none ∨ (s.live p).code ≠ .finishing)) := by
  cases act with
  | interrupt π i =>
      cases hsav
      exact ⟨π, rfl, Or.inl ⟨i, rfl⟩⟩
  | yield q =>
      have hruns := actor_runs hstep rfl
      simp only [saver] at hsav
      split at hsav
      · cases hsav
        exact ⟨sys.pun p, hruns.1, Or.inr (Or.inr (Or.inl rfl))⟩
      · cases hsav
  | run q =>
      have hruns := actor_runs hstep rfl
      simp only [saver] at hsav
      split at hsav
      · rename_i hop
        split at hsav
        · cases hsav
          refine ⟨sys.pun p, hruns.1, Or.inr (Or.inr (Or.inr ⟨rfl, Or.inl ?_⟩))⟩
          simp [hop]
        · cases hsav
      · rename_i hcode
        cases hsav
        refine ⟨sys.pun p, hruns.1, Or.inr (Or.inr (Or.inr ⟨rfl, Or.inr ?_⟩))⟩
        simp [hcode]
      · rename_i hcode
        cases hsav
        refine ⟨sys.pun p, hruns.1, Or.inr (Or.inr (Or.inr ⟨rfl, Or.inr ?_⟩))⟩
        simp [hcode]
      · cases hsav
  | handle π =>
      simp only [saver] at hsav
      split at hsav
      · rename_i hin _
        split at hsav
        · cases hsav
          refine ⟨π, rfl, Or.inr (Or.inl ?_)⟩
          simp [hin]
        · cases hsav
      · cases hsav
  | _ => cases hsav

/-- Who has a seat exists. -/
theorem Ledger.seat_exists {size : Nat → Prop} (h : Ledger size sys s)
    (hp : 0 < s.seats sys p) : (s.live p).code.exists = true := by
  have hbal := h.books.balanced p
  cases hcode : (s.live p).code with
  | unborn =>
      rw [woken_none (by rw [hcode]; rfl), hcode] at hbal
      simp only [Code.base] at hbal
      omega
  | dead =>
      rw [woken_none (by rw [hcode]; rfl), hcode] at hbal
      simp only [Code.base] at hbal
      omega
  | _ => rfl

/-- On the processor of a process that runs, there are its own steps and
interrupts. -/
theorem site_runs (hstep : s.step sys act = some t) (hp : s.Runs sys p)
    (hsite : act.site sys = sys.pun p) :
    act.actor = some p ∨ ∃ i, act = .interrupt (sys.pun p) i := by
  have hinside : ∀ h, ¬ s.Inside (sys.pun p) h := by
    intro h hin
    unfold Inside at hin
    rw [hp.1, hp.2] at hin
    cases hin
  have hactor : ∀ q, act.actor = some q → act.site sys = sys.pun q → act.actor = some p := by
    intro q hq hsq
    have hruns := actor_runs hstep hq
    rw [hq, ← hruns.1, ← hsq, hsite, hp.1]
  cases act with
  | interrupt π i =>
      right
      simp only [SchedAct.site] at hsite
      exact ⟨i, by rw [hsite]⟩
  | freeProcess π q =>
      simp only [SchedAct.site] at hsite
      simp only [Sched.step, hsite, hinside, if_false] at hstep
      split at hstep <;> cases hstep
  | freeAlting π q =>
      simp only [SchedAct.site] at hsite
      simp [Sched.step, hsite, hinside] at hstep
  | handle π =>
      simp only [SchedAct.site] at hsite
      simp [Sched.step, hsite, hp.1, hp.2] at hstep
  | prepare q => exact Or.inl (hactor q rfl rfl)
  | select q => exact Or.inl (hactor q rfl rfl)
  | found q => exact Or.inl (hactor q rfl rfl)
  | par q _ _ => exact Or.inl (hactor q rfl rfl)
  | build q _ => exact Or.inl (hactor q rfl rfl)
  | wake q _ => exact Or.inl (hactor q rfl rfl)
  | free q _ => exact Or.inl (hactor q rfl rfl)
  | yield q => exact Or.inl (hactor q rfl rfl)
  | sync q => exact Or.inl (hactor q rfl rfl)
  | run q => exact Or.inl (hactor q rfl rfl)

end Sched

namespace Records

variable {N U : Nat} {sys : Procs N U} {index : Fin N → MemIndex} {s t m : Records N U}
  {base total : Nat} {free : MemIndex → List Nat} {act : SchedAct N U} {p q : Fin N}
  {word : Option Nat} {done : List (Fin N)} {u : Sched N U}

section Start

/-- The records of some processes have been built, and nothing else has happened. -/
structure Built (sys : Procs N U) (index : Fin N → MemIndex) (base : Nat)
    (s : Records N U) (done : List (Fin N)) : Prop where
  sched : s.sched = Sched.init sys
  past : s.past = fun _ => false
  histories : s.released = [] ∧ s.ended = [] ∧ s.spoilt = []
  lists : ∀ i, s.arena.mem.procmemlist i = none
  layout : ∃ free, Layout base s.arena free
  housed : s.Housed index (· ∈ done)

theorem Built.build (h : Built sys index base s done)
    (hstep : s.build_process index p = some t) : Built sys index base t (p :: done) := by
  obtain ⟨⟨addr, mem⟩, halloc, rfl⟩ := Option.map_eq_some_iff.mp hstep
  obtain ⟨free, hL⟩ := h.layout
  obtain ⟨hL', -⟩ := allocate_fresh hL halloc
  refine ⟨h.sched, h.past, h.histories, allocate_lists h.lists halloc, hL', ?_⟩
  apply h.housed.build hL halloc rfl rfl
  intro q hq hqp
  exact (List.mem_cons.mp hq).resolve_left hqp

theorem Built.all (l : List (Fin N)) (h : Built sys index base s done)
    (hrun : l.foldlM (build_process index) s = some t) :
    ∃ done', Built sys index base t done' ∧ (∀ p ∈ l, p ∈ done') ∧
      ∀ p ∈ done, p ∈ done' := by
  induction l generalizing s done with
  | nil =>
      cases hrun
      exact ⟨done, h, by simp, fun _ hp => hp⟩
  | cons p l ih =>
      rw [List.foldlM_cons] at hrun
      obtain ⟨m, hm, hrest⟩ := Option.bind_eq_some_iff.mp hrun
      obtain ⟨done', hbuilt, hl, hdone⟩ := ih (h.build hm) hrest
      refine ⟨done', hbuilt, ?_, ?_⟩
      · intro q hq
        obtain rfl | hq := List.mem_cons.mp hq
        · exact hdone q List.mem_cons_self
        · exact hl q hq
      · intro q hq
        exact hdone q (List.mem_cons_of_mem p hq)

/-- The processes that exist at first have records of their own. -/
theorem built_first (hinit : first_records sys index base total = some s) :
    ∃ done, Built sys index base s done ∧ ∀ p, s.sched.Born p → p ∈ done := by
  have hstart : Built sys index base (start sys base total) [] := by
    refine ⟨rfl, rfl, ⟨rfl, rfl, rfl⟩, fun _ => rfl, ⟨_, layout_start base total⟩, ?_⟩
    constructor <;> simp
  obtain ⟨done, hbuilt, hall, -⟩ := hstart.all _ hinit
  refine ⟨done, hbuilt, ?_⟩
  intro p hp
  apply hall
  rw [hbuilt.sched] at hp
  have hfirst : p = sys.initial ∨ sys.idler (sys.pun p) = p := by
    by_contra hnot
    simp [Sched.Born, Sched.init, hnot] at hp
  obtain rfl | hidle := hfirst
  · exact List.mem_cons_self
  · apply List.mem_cons_of_mem
    rw [List.mem_ofFn]
    exact ⟨sys.pun p, hidle⟩

end Start

section Unreleased

/-- Before the first release. -/
structure Unreleased (sys : Procs N U) (index : Fin N → MemIndex) (s : Records N U) :
    Prop where
  populated : Sched.Populated sys s.sched
  past : s.past = fun _ => false
  histories : s.released = [] ∧ s.ended = [] ∧ s.spoilt = []
  lists : ∀ i, s.arena.mem.procmemlist i = none
  held : ∀ p, s.sched.Born p → (index p, s.record p) ∈ s.arena.held

theorem unreleased_first (hinit : first_records sys index base total = some s) :
    s.Unreleased sys index := by
  obtain ⟨done, hbuilt, hborn⟩ := built_first hinit
  refine ⟨?_, hbuilt.past, hbuilt.histories, hbuilt.lists, ?_⟩
  · rw [hbuilt.sched]
    exact Sched.populated_init sys
  · intro p hp
    exact hbuilt.housed.held p (hborn p hp)

theorem Unreleased.not_free (h : s.Unreleased sys index) (addr : Nat) : ¬ s.Free addr := by
  intro hfree
  obtain ⟨i, l, hc, hmem⟩ := hfree
  rw [h.lists i] at hc
  cases l with
  | nil => cases hmem
  | cons a l => cases hc.1

theorem Unreleased.free_unused (h : s.Unreleased sys index) : s.FreeUnused := by
  obtain ⟨hreleased, hended, hspoilt⟩ := h.histories
  refine ⟨⟨fun _ p _ => h.not_free _, hspoilt, ?_⟩, fun π _ => h.not_free _⟩
  intro p
  simp [hreleased, hended]

/-- A step of the scheduler.  Nobody gets to the end of its termination. -/
theorem Unreleased.step (h : s.Unreleased sys index)
    (hstep : s.step sys index (.sched act word) = some t) : t.Unreleased sys index := by
  obtain ⟨hadm, sched, hsome⟩ := sched_admits hstep
  have hsaver : ∀ p, s.sched.saver sys act = some p →
      (index p, s.record p) ∈ s.arena.held := by
    intro p hsav
    obtain ⟨π, hπ, -⟩ := Sched.saver_cases hsome hsav
    exact h.held p (hπ ▸ h.populated.current π)
  obtain ⟨hsched, m, hm, ht⟩ := step_sched hstep hsaver
  obtain ⟨⟨hpast, hreleased, hspoilt⟩, hrecords, hended⟩ := account_cases hm
  have hstepped := h.populated.step hsched
  have hnotended : m.ended = s.ended := by
    obtain hsame | ⟨p, ⟨rfl, hop, hcode⟩, -⟩ := hended
    · exact hsame
    · have hp := (hadm hop).2 hcode
      rw [h.past] at hp
      cases hp
  rw [ht]
  refine ⟨hstepped.populated, hpast.trans h.past, ?_, ?_, ?_⟩
  · simp only
    rw [hreleased, hnotended, hspoilt]
    exact h.histories
  · obtain ⟨p, child, addr, mem, -, halloc, harena, -⟩ | ⟨-, harena, -⟩ := hrecords
    · simp only [harena]
      exact allocate_lists h.lists halloc
    · simp only [harena]
      exact h.lists
  · intro p hp
    obtain ⟨parent, child, addr, mem, rfl, halloc, harena, hrecord⟩ |
      ⟨hnot, harena, hrecord⟩ := hrecords
    · simp only [harena, hrecord]
      by_cases hpc : p = child
      · subst hpc
        simp
      · obtain hborn | ⟨parent', heq⟩ := hstepped.newborn p hp
        · simpa [hpc] using Or.inr (h.held p hborn)
        · cases heq
          exact absurd rfl hpc
    · simp only [harena, hrecord]
      obtain hborn | ⟨parent, heq⟩ := hstepped.newborn p hp
      · exact h.held p hborn
      · exact absurd heq (hnot parent p)

/-- The first release is made by a process that runs, with interrupts enabled. -/
theorem Unreleased.not_unused (h : s.Unreleased sys index)
    (hstep : s.step sys index (.release p) = some t) : ¬ t.FreeUnused := by
  obtain ⟨hg, hstep⟩ := Option.ite_none_right_eq_some.mp hstep
  cases hstep
  obtain ⟨⟨⟨hcur, hin⟩, hop, hcode, -⟩, -⟩ := hg
  intro hunused
  apply hunused.current (sys.pun p)
  · simp only [release]
    unfold Sched.Enabled
    rw [hcur]
    refine ⟨hin, ?_⟩
    unfold Context.disabled
    simp only [decide_eq_true_eq] at hcode
    rw [hcode, hop]
  · simp only [release]
    rw [hcur]
    refine ⟨index p, [s.record p], ⟨?_, ?_⟩, List.mem_singleton_self _⟩
    · simp [release_mem]
    · simp [release_mem, h.lists]

end Unreleased

section Keeping

/-- The process exists and has not released its record. -/
def Owns (s : Records N U) (p : Fin N) : Prop :=
  (s.sched.live p).code.exists = true ∧ s.past p = false

/-- The invariant of runs without interrupts between release and last step. -/
structure Kept (sys : Procs N U) (index : Fin N → MemIndex) (base : Nat)
    (s : Records N U) : Prop where
  ledger : Sched.Ledger (fun _ => True) sys s.sched
  populated : Sched.Populated sys s.sched
  layout : ∃ free, Layout base s.arena free
  housed : s.Housed index s.Owns
  window : ∀ p, s.past p = true → (s.sched.live p).code = .dead ∨
    (s.sched.live p).code = .finishing ∧ (s.sched.live p).op = .none ∧ s.sched.Runs sys p
  once : ∀ p, s.released.count p = (s.past p).toNat
  ended : ∀ p ∈ s.ended, s.past p = true
  unwritten : s.spoilt = []

theorem Kept.current_exists (h : s.Kept sys index base)
    (hcur : s.sched.current (sys.pun p) = p) : (s.sched.live p).code.exists = true :=
  h.ledger.seat_exists (Sched.seats_pos hcur)

/-- A process that exists and is behind the release is on its way to its end. -/
theorem Kept.finishing (h : s.Kept sys index base)
    (hex : (s.sched.live p).code.exists = true) (hp : s.past p = true) :
    (s.sched.live p).code = .finishing ∧ (s.sched.live p).op = .none ∧
      s.sched.Runs sys p := by
  obtain hdead | hwin := h.window p hp
  · rw [hdead] at hex
    cases hex
  · exact hwin

theorem Kept.owned_not_free (h : s.Kept sys index base) (hp : s.Owns p) :
    ¬ s.Free (s.record p) := by
  obtain ⟨free, hL⟩ := h.layout
  exact not_free_of_held hL (h.housed.held p hp)

theorem Kept.reclaimed (h : s.Kept sys index base) : s.Reclaimed := by
  refine ⟨?_, h.unwritten, ?_⟩
  · intro π p hp
    have hlined := h.ledger.sound.lined
    have hpun : sys.pun p = π := hp.elim (hlined.pun_links π p) (hlined.pun_ipq π p)
    subst hpun
    have hqueued : Queued sys s.sched.queues p := hp
    have hseat : 0 < s.sched.seats sys p := by
      unfold Sched.seats
      rw [if_pos hqueued]
      omega
    have hex := h.ledger.seat_exists hseat
    apply h.owned_not_free
    refine ⟨hex, ?_⟩
    by_contra hpast
    obtain ⟨hcode, -, hruns⟩ := h.finishing hex (Bool.eq_true_of_not_eq_false hpast)
    have hawaits : (s.sched.live p).code.awaits = none := by
      rw [hcode]
      rfl
    exact h.ledger.not_queued_of_awaits hruns.1 hawaits hqueued
  · intro p
    rw [h.once p]
    refine ⟨Bool.toNat_le _, ?_⟩
    intro hp
    rw [h.ended p hp]
    rfl

theorem Kept.in_window (h : s.Kept sys index base) : s.InWindow := by
  intro π _ hfree
  have hcur : s.sched.current (sys.pun (s.sched.current π)) = s.sched.current π := by
    rw [h.ledger.sound.pun]
  have hex := h.current_exists hcur
  have hpast : s.past (s.sched.current π) = true := by
    by_contra hnot
    exact h.owned_not_free ⟨hex, Bool.eq_false_of_not_eq_true hnot⟩ hfree
  exact ⟨hpast, (h.finishing hex hpast).1⟩

theorem kept_first (hinit : first_records sys index base total = some s) :
    s.Kept sys index base := by
  obtain ⟨done, hbuilt, hborn⟩ := built_first hinit
  obtain ⟨hreleased, hended, hspoilt⟩ := hbuilt.histories
  have hdone : ∀ p, s.Owns p → p ∈ done := by
    intro p hp
    apply hborn p
    intro hcode
    have hex := hp.1
    rw [hcode] at hex
    cases hex
  constructor
  case ledger =>
    rw [hbuilt.sched]
    exact Sched.ledger_init sys
  case populated =>
    rw [hbuilt.sched]
    exact Sched.populated_init sys
  case layout => exact hbuilt.layout
  case housed => exact hbuilt.housed.mono rfl rfl hdone
  case window =>
    intro p hp
    rw [hbuilt.past] at hp
    cases hp
  case once => simp [hreleased, hbuilt.past]
  case ended => simp [hended]
  case unwritten => exact hspoilt

/-- A release. -/
theorem Kept.release (h : s.Kept sys index base)
    (hstep : s.step sys index (.release p) = some t) : t.Kept sys index base := by
  obtain ⟨hg, hstep⟩ := Option.ite_none_right_eq_some.mp hstep
  cases hstep
  obtain ⟨⟨hruns, hop, hcode, -⟩, hpast⟩ := hg
  simp only [decide_eq_true_eq] at hcode
  have hp : s.Owns p := by
    refine ⟨?_, hpast⟩
    rw [hcode]
    rfl
  obtain ⟨free, hL⟩ := h.layout
  have howns : ∀ q, (s.release index p).Owns q → q ≠ p ∧ s.Owns q := by
    intro q hq
    obtain ⟨hex, hqp⟩ := hq
    simp only [Records.release] at hex hqp
    have hne : q ≠ p := by
      intro heq
      rw [heq, Function.update_self] at hqp
      cases hqp
    rw [Function.update_of_ne hne] at hqp
    exact ⟨hne, hex, hqp⟩
  constructor
  case ledger => exact h.ledger
  case populated => exact h.populated
  case layout => exact ⟨_, hL.release (h.housed.held p hp)⟩
  case housed =>
    constructor
    · intro q hq
      obtain ⟨hne, hq⟩ := howns q hq
      apply (List.mem_erase_of_ne _).mpr (h.housed.held q hq)
      intro heq
      exact hne (h.housed.alone q p hq hp (Prod.ext_iff.mp heq).2)
    · intro q r hq hr heq
      exact h.housed.alone q r (howns q hq).2 (howns r hr).2 heq
  case window =>
    intro q hq
    by_cases hqp : q = p
    · subst hqp
      exact Or.inr ⟨hcode, hop, hruns⟩
    · simp only [Records.release, Function.update_of_ne hqp] at hq
      exact h.window q hq
  case once =>
    intro q
    simp only [Records.release]
    by_cases hqp : q = p
    · subst hqp
      rw [List.count_cons_self, h.once, hpast, Function.update_self]
      rfl
    · rw [List.count_cons_of_ne (Ne.symm hqp), h.once, Function.update_of_ne hqp]
  case ended =>
    intro q hq
    simp only [Records.release]
    by_cases hqp : q = p
    · rw [hqp, Function.update_self]
    · rw [Function.update_of_ne hqp]
      exact h.ended q hq
  case unwritten => exact h.unwritten

/-- Who is behind the release takes the last step, or none. -/
theorem Kept.acts (h : s.Kept sys index base) (hadm : s.Admits sys act)
    (hsome : s.sched.step sys act = some u) (hp : s.past p = true)
    (hactor : act.actor = some p) : s.sched.Ends act p := by
  have hruns := Sched.actor_runs hsome hactor
  obtain ⟨hcode, hop, -⟩ := h.finishing (h.current_exists hruns.1) hp
  cases act <;> simp only [SchedAct.actor, Option.some.injEq, reduceCtorEq] at hactor <;>
    subst hactor
  case run => exact ⟨rfl, hop, hcode⟩
  case yield =>
    have hnot := hadm hcode
    rw [hp] at hnot
    cases hnot
  case build => simp [Sched.step, hcode] at hsome
  all_goals simp [Sched.step, Sched.May, hcode] at hsome

/-- The record that a context is saved in has not been released. -/
theorem Kept.saver_held (h : s.Kept sys index base) (hadm : s.Admits sys act)
    (hintr : ∀ π i, act = .interrupt π i → s.past (s.sched.current π) = false)
    (hsome : s.sched.step sys act = some u) (hsav : s.sched.saver sys act = some p) :
    (index p, s.record p) ∈ s.arena.held := by
  obtain ⟨π, hπ, hwhy⟩ := Sched.saver_cases hsome hsav
  have hcur : s.sched.current (sys.pun p) = p := by
    rw [← hπ, h.ledger.sound.pun]
  have hex := h.current_exists hcur
  apply h.housed.held p
  refine ⟨hex, ?_⟩
  by_contra hnot
  have hpast := Bool.eq_true_of_not_eq_false hnot
  obtain ⟨hcode, hop, hruns⟩ := h.finishing hex hpast
  obtain ⟨i, heq⟩ | hin | heq | ⟨-, hne⟩ := hwhy
  · have hfalse := hintr π i heq
    rw [hπ, hpast] at hfalse
    cases hfalse
  · exact hin hruns.2
  · have hends := h.acts hadm hsome hpast (by rw [heq]; rfl)
    rw [heq] at hends
    cases hends.1
  · obtain hne | hne := hne
    · exact hne hop
    · exact hne hcode

/-- Who owns a record after a step has owned it before, or has been built. -/
theorem Kept.owned (h : s.Kept sys index base) (hsome : s.sched.step sys act = some u)
    (hex : (u.live p).code.exists = true) (hp : s.past p = false) :
    s.Owns p ∨ ∃ parent, act = .build parent p := by
  by_cases hbuild : ∃ parent, act = .build parent p
  · exact Or.inr hbuild
  · left
    refine ⟨?_, hp⟩
    by_cases hactor : act.actor = some p
    · exact h.current_exists (Sched.actor_runs hsome hactor).1
    · have hsettled : s.sched.Settled sys := h.ledger.sound.saved
      have hstands := hsettled.others hsome hactor (fun parent heq => hbuild ⟨parent, heq⟩)
      rw [← hstands.1]
      exact hex

/-- Who is behind the release stays in its window, or comes to its end. -/
theorem Kept.window_step (h : s.Kept sys index base) (hadm : s.Admits sys act)
    (hintr : ∀ π i, act = .interrupt π i → s.past (s.sched.current π) = false)
    (hsome : s.sched.step sys act = some u) (hp : s.past p = true) :
    (u.live p).code = .dead ∨
      (u.live p).code = .finishing ∧ (u.live p).op = .none ∧ u.Runs sys p := by
  have hsettled : s.sched.Settled sys := h.ledger.sound.saved
  by_cases hactor : act.actor = some p
  · exact Or.inl (hsettled.ends (h.acts hadm hsome hp hactor) hsome)
  · have hbuild : ∀ parent, act ≠ .build parent p := by
      intro parent heq
      rw [heq] at hsome
      have hunborn := (Sched.built_unborn hsome).1
      obtain hdead | ⟨hcode, -⟩ := h.window p hp
      · rw [hdead] at hunborn
        cases hunborn
      · rw [hcode] at hunborn
        cases hunborn
    obtain ⟨hcode', hop'⟩ := hsettled.others hsome hactor hbuild
    rw [hcode', hop']
    obtain hdead | ⟨hcode, hop, hruns⟩ := h.window p hp
    · exact Or.inl hdead
    · have hsite : sys.pun p ≠ act.site sys := by
        intro hsite
        obtain hact | ⟨i, hact⟩ := Sched.site_runs hsome hruns hsite.symm
        · exact hactor hact
        · have hfalse := hintr _ i hact
          rw [hruns.1, hp] at hfalse
          cases hfalse
      have hstepped := h.populated.step hsome
      obtain ⟨c, hcurrent, -⟩ := hstepped.turn
      have hcur : u.current (sys.pun p) = p := by
        rw [hcurrent, Function.update_of_ne hsite, hruns.1]
      have hin := hstepped.frame _ hsite
      rw [hcur, hruns.1, hruns.2] at hin
      exact Or.inr ⟨hcode, hop, hcur, hin⟩

/-- A step of the scheduler. -/
theorem Kept.sched (h : s.Kept sys index base)
    (hC : s.Undisturbed sys (.sched act word))
    (hstep : s.step sys index (.sched act word) = some t) : t.Kept sys index base := by
  obtain ⟨horderly, hintr⟩ := hC
  obtain ⟨hadm, sched, hsome⟩ := sched_admits hstep
  obtain ⟨hsched, m, hm, ht⟩ :=
    step_sched hstep (fun p hsav => h.saver_held hadm hintr hsome hsav)
  obtain ⟨⟨hpast, hreleased, hspoilt⟩, hrecords, hended⟩ := account_cases hm
  have howned : ∀ p, t.Owns p → s.Owns p ∨ ∃ parent, act = .build parent p := by
    intro p hp
    rw [ht] at hp
    apply h.owned hsched hp.1
    rw [← hpast]
    exact hp.2
  have harena : t.arena = m.arena := by rw [ht]
  have hrecord : t.record = m.record := by rw [ht]
  have hblocks : (∃ free, Layout base t.arena free) ∧ t.Housed index t.Owns := by
    obtain ⟨free, hL⟩ := h.layout
    obtain ⟨parent, child, addr, mem, hact, halloc, hmarena, hmrecord⟩ |
      ⟨hnot, hmarena, hmrecord⟩ := hrecords
    · rw [hmarena] at harena
      rw [hmrecord] at hrecord
      constructor
      · rw [harena]
        exact (allocate_fresh hL halloc).1
      · apply h.housed.build hL halloc harena hrecord
        intro p hp hne
        obtain hown | ⟨parent', heq⟩ := howned p hp
        · exact hown
        · rw [hact] at heq
          cases heq
          exact absurd rfl hne
    · rw [hmarena] at harena
      rw [hmrecord] at hrecord
      constructor
      · rw [harena]
        exact ⟨free, hL⟩
      · apply h.housed.mono harena hrecord
        intro p hp
        obtain hown | ⟨parent, heq⟩ := howned p hp
        · exact hown
        · exact absurd heq (hnot parent p)
  obtain ⟨hlayout, hhoused⟩ := hblocks
  constructor
  case ledger => exact h.ledger.step horderly (fun _ _ _ _ => trivial) hsched
  case populated => exact (h.populated.step hsched).populated
  case layout => exact hlayout
  case housed => exact hhoused
  case window =>
    intro p hp
    rw [ht] at hp
    apply h.window_step hadm hintr hsched
    rw [← hpast]
    exact hp
  case once =>
    intro p
    rw [ht]
    simp only
    rw [hreleased, hpast, h.once]
  case ended =>
    intro p hp
    rw [ht] at hp ⊢
    simp only at hp ⊢
    rw [hpast]
    obtain hsame | ⟨q, ⟨hact, hop, hcode⟩, hmore⟩ := hended
    · rw [hsame] at hp
      exact h.ended p hp
    · rw [hmore] at hp
      obtain rfl | hp := List.mem_cons.mp hp
      · rw [hact] at hadm
        exact (hadm hop).2 hcode
      · exact h.ended p hp
  case unwritten =>
    rw [ht]
    exact hspoilt.trans h.unwritten

theorem Kept.step {act : RecordAct N U} (h : s.Kept sys index base)
    (hC : s.Undisturbed sys act) (hstep : s.step sys index act = some t) :
    t.Kept sys index base := by
  cases act with
  | release p => exact h.release hstep
  | sched act word => exact h.sched hC hstep

end Keeping

section Guarantees

/-- **Record reclamation.**  A record is free only when nothing uses it through the
runs in which no process comes to the release of its record, and no others: the
process is still current, with interrupts enabled.  Beyond the release, a free
record is not linked and not written to, and is current in that window alone, as
long as nobody is disturbed in it. -/
theorem records_unused_iff (sys : Procs N U) (index : Fin N → MemIndex) (base total : Nat)
    (s₀ : Records N U) (hinit : first_records sys index base total = some s₀)
    (acts : List (RecordAct N U)) (hrun : (exec (Records.step sys index) s₀ acts).isSome) :
    (Throughout (Records.step sys index) FreeUnused s₀ acts ↔
      Along (Records.step sys index) (fun _ act => KeepsRecords act) s₀ acts) ∧
    (Along (Records.step sys index) (Undisturbed sys) s₀ acts →
      Throughout (Records.step sys index) (fun s => s.Reclaimed ∧ s.InWindow) s₀ acts) := by
  constructor
  · obtain ⟨t, ht⟩ := Option.isSome_iff_exists.mp hrun
    apply throughout_iff_along (I := Unreleased sys index) _ _ _ ht
      (unreleased_first hinit)
    · intro s act u hs hkeeps hstep
      cases act with
      | release p => exact hkeeps.elim
      | sched act word => exact hs.step hstep
    · intro s hs
      exact hs.free_unused
    · intro s act u hs hnot hstep
      cases act with
      | release p => exact hs.not_unused hstep
      | sched act word => exact absurd trivial hnot
  · intro hC
    apply throughout_of_along (I := Kept sys index base) _ _ hC (kept_first hinit)
    · intro s act u hs hundisturbed hstep
      exact hs.step hundisturbed hstep
    · intro s hs
      exact ⟨hs.reclaimed, hs.in_window⟩

/-- A child that terminates on the initial process's processor. -/
def oneChild : Procs 3 1 where
  pun := fun _ => 0
  pri := ![INIT_PRI, IDLE_PRI, 0x2000]
  initial := 0
  idler := fun _ => 1
  pri_initial := rfl
  pun_idler := pun_single
  pri_idler := by decide

/-- Three children, two of which terminate one after the other. -/
def threeChildren : Procs 5 1 where
  pun := fun _ => 0
  pri := ![INIT_PRI, IDLE_PRI, 0x2000, 0x2200, 0x2400]
  initial := 0
  idler := fun _ => 1
  pri_initial := rfl
  pun_idler := pun_single
  pri_idler := by decide

/-- The child comes to its end: its record is free, and that has hurt nobody. -/
theorem records_unused_one_child :
    ∃ s₀, first_records oneChild (fun _ => 5) 1000 10000 = some s₀ ∧
      Throughout (Records.step oneChild fun _ => 5) (fun s => s.Reclaimed ∧ s.InWindow) s₀
        [.sched (.par 0 .par_pri 1) none, .sched (.build 0 2) none, .sched (.run 0) none,
          .sched (.run 0) none, .sched (.sync 2) none, .sched (.run 2) none,
          .sched (.run 2) none, .sched (.run 2) none, .release 2, .sched (.run 2) none] := by
  refine ⟨_, rfl, ?_⟩
  apply (records_unused_iff oneChild (fun _ => 5) 1000 10000 _ rfl _ (by decide +kernel)).2
  refine ⟨⟨trivial, by simp⟩, ?_⟩
  intro _ hstep
  cases hstep
  refine ⟨⟨trivial, by simp⟩, ?_⟩
  intro _ hstep
  cases hstep
  refine ⟨⟨?_, by simp⟩, ?_⟩
  · intro q hq
    cases hq
  intro _ hstep
  cases hstep
  refine ⟨⟨?_, by simp⟩, ?_⟩
  · intro q hq
    cases hq
  intro _ hstep
  cases hstep
  refine ⟨⟨trivial, by simp⟩, ?_⟩
  intro _ hstep
  cases hstep
  -- the parent is scheduled, where it has given up the processor
  refine ⟨⟨?_, by simp⟩, ?_⟩
  · intro q hq hpast
    cases hq
    cases hpast
  intro _ hstep
  cases hstep
  refine ⟨⟨?_, by simp⟩, ?_⟩
  · intro q hq
    cases hq
  intro _ hstep
  cases hstep
  refine ⟨⟨?_, by simp⟩, ?_⟩
  · intro q hq
    cases hq
  intro _ hstep
  cases hstep
  refine ⟨trivial, ?_⟩
  intro _ hstep
  cases hstep
  refine ⟨⟨?_, by simp⟩, ?_⟩
  · intro q hq
    cases hq
  intro _ hstep
  cases hstep
  trivial

/-- The first child is released and gone; the second one is interrupted when its
record has been released, and its context is written over the block of the first. -/
theorem free_record_written :
    ¬ ∀ s₀ acts, first_records threeChildren (fun _ => 5) 1000 10000 = some s₀ →
      (exec (Records.step threeChildren fun _ => 5) s₀ acts).isSome →
      Throughout (Records.step threeChildren fun _ => 5) FreeUnused s₀ acts := by
  intro hall
  have hlast := (hall _
    [.sched (.par 0 .par_pri 3) none, .sched (.build 0 2) none, .sched (.build 0 3) none,
      .sched (.build 0 4) none, .sched (.run 0) none, .sched (.run 0) none,
      .sched (.sync 2) none, .sched (.run 2) none, .release 2, .sched (.run 2) none,
      .sched (.sync 3) none, .sched (.run 3) none, .release 3,
      .sched (.interrupt 0 .timeout) none] rfl (by decide +kernel)).last_any
    (p := fun t => t.spoilt ≠ []) (by decide +kernel)
  obtain ⟨t, hunused, hspoilt⟩ := hlast
  exact of_decide_eq_true hspoilt hunused.unwritten

end Guarantees

end Records

end Cxp
