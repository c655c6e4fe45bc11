import Cxp.Communication
import Cxp.TimeoutOwnership
import Mathlib.Algebra.Order.Group.Multiset
import Mathlib.Data.Multiset.Filter
import Mathlib.Data.Multiset.AddSub

/-!
# What an alternation does with its timeouts (`alt.c`, `timer.c`)

The two selects as callers of `enable_timeout` and `disable_timeout`, over the
runs of `TimerRun`, with `After` beside them.  What a channel guard reports,
and when a waiting select goes on, is left open.

A select allocates a descriptor for each timer guard that it enables, and
releases what `disable_timeout` finds.  When the interrupt handler has taken
an expired entry off the queue nobody releases it (`expired_guard_leaks`), and
that, with the searches that come to another entry, is all that goes wrong
(`alternations_do_not_leak`).
-/

namespace Cxp

open LinkedChain Run Timers

/-- Where a process stands in a select, while no timer call of its is under
way. -/
inductive SelectPc (Chan : Type)
  /-- in no select -/
  | out
  /-- about to enable the `k`-th guard -/
  | enable (f : Select Chan) (k : Nat)
  /-- has enabled all guards -/
  | wait (f : Select Chan)
  /-- about to disable the last of the first `k` guards -/
  | disable (f : Select Chan) (k : Nat)
  deriving DecidableEq

/-- The timers, and the selects that use them.  The last two fields are
histories: the descriptors allocated and released by the last select that a
process has begun. -/
structure SelectRun (N U : Nat) (Chan : Type) where
  timer : TimerState N U
  select : Fin N → SelectPc Chan
  allocated : Fin N → List (DescRef N)
  released : Fin N → List (DescRef N)

/-- A step of the timers; a call of a select; its next round, in which a
channel guard is `ready` or not. -/
inductive SelectAct (N U : Nat) (Chan : Type)
  | timer (act : TimerAct N U)
  | select (p : Fin N) (f : Select Chan)
  | guard (p : Fin N) (ready : Bool)

variable {N U : Nat} {Chan : Type} (pun : Fin N → Fin U)

namespace SelectRun

def init (N U : Nat) (Chan : Type) (proc : Fin N) : SelectRun N U Chan where
  timer := TimerState.init N U proc
  select := fun _ => .out
  allocated := fun _ => []
  released := fun _ => []

def goto (s : SelectRun N U Chan) (p : Fin N) (pc : SelectPc Chan) :
    SelectRun N U Chan :=
  { s with select := Function.update s.select p pc }

/-- The descriptor which the next step of a process allocates. -/
def allocates (s : SelectRun N U Chan) (p : Fin N) : List (DescRef N) :=
  match s.timer.pc p with
  | .fill _ => [s.timer.tm.allocate_mem.1]
  | _ => []

/-- The descriptor which the next step of a process releases. -/
def releases (s : SelectRun N U Chan) (p : Fin N) : List (DescRef N) :=
  match s.timer.pc p with
  | .release _ desc => [desc]
  | _ => []

/-- A step of the timers.  A process in a select calls `enable_timeout` and
`disable_timeout` from there, and does not call `After`. -/
def timerStep (s : SelectRun N U Chan) :
    TimerAct N U → Option (SelectRun N U Chan)
  | .After p when =>
      match s.select p with
      | .out => (s.timer.step pun (.After p when)).map fun ts => { s with timer := ts }
      | _ => none
  | .enable_timeout _ _ => none
  | .disable_timeout _ _ => none
  | .run p =>
      (s.timer.step pun (.run p)).map fun ts =>
        { s with
          timer := ts
          allocated := Function.update s.allocated p (s.allocated p ++ s.allocates p)
          released := Function.update s.released p (s.released p ++ s.releases p) }
  | act => (s.timer.step pun act).map fun ts => { s with timer := ts }

/-- A guard's `enable_timeout`, and where the select goes after it. -/
def enable_timeout (s : SelectRun N U Chan) (p : Fin N) (time : Int)
    (found next : SelectPc Chan) : Option (SelectRun N U Chan) :=
  (s.timer.step pun (.enable_timeout p time)).map fun ts =>
    { s with timer := ts }.goto p (if s.timer.clock ≥ time then found else next)

/-- The next round of the enabling loop, or the second enabling of the
earliest timeout behind it. -/
def enable (s : SelectRun N U Chan) (p : Fin N) (f : Select Chan) (k : Nat)
    (ready : Bool) : Option (SelectRun N U Chan) :=
  match f.guard k with
  | some (.chan _) =>
      some (s.goto p (if ready then .disable f (k + 1) else .enable f (k + 1)))
  | some .skip => some (s.goto p (.disable f (k + 1)))
  | some (.timer time) =>
      s.enable_timeout pun p time (.disable f (k + 1)) (.enable f (k + 1))
  | none =>
      if f.earliest ≠ Select.NO_TIME then
        s.enable_timeout pun p f.earliest (.disable f f.size) (.wait f)
      else some (s.goto p (.wait f))

/-- The next round of the disabling loop. -/
def disable (s : SelectRun N U Chan) (p : Fin N) (f : Select Chan) :
    Nat → Option (SelectRun N U Chan)
  | 0 => some (s.goto p .out)
  | k + 1 =>
      match f.guard k with
      | some (.chan _) => some (s.goto p (.disable f k))
      | some .skip => some (s.goto p (.disable f k))
      | some (.timer time) =>
          (s.timer.step pun (.disable_timeout p time)).map fun ts =>
            { s with timer := ts }.goto p (.disable f k)
      | none => none

def step (s : SelectRun N U Chan) :
    SelectAct N U Chan → Option (SelectRun N U Chan)
  | .timer act => s.timerStep pun act
  | .select p f =>
      match s.select p with
      | .out =>
          if s.timer.pc p = .run then
            some { s.goto p (.enable f 0) with
              allocated := Function.update s.allocated p []
              released := Function.update s.released p [] }
          else none
      | _ => none
  | .guard p ready =>
      if s.timer.pc p = .run then
        match s.select p with
        | .out => none
        | .enable f k => s.enable pun p f k ready
        | .wait f => some (s.goto p (.disable f f.size))
        | .disable f k => s.disable pun p f k
      else none

end SelectRun

/-- What is to hold when process `p` is in no select: no descriptor for it is
in a queue, unless it is in `After`, and what its last select allocated has
been released, each descriptor as often. -/
structure Returned (s : SelectRun N U Chan) (p : Fin N) : Prop where
  queues : s.timer.pc p = .run → ∀ π l,
    Chain s.timer.tm.next (s.timer.tm.head π) l →
    ∀ d ∈ l, s.timer.tm.proc d ≠ p
  balanced : (s.allocated p).Perm (s.released p)

/-- No select leaks: every one that has returned has left things so, and when
no process is in a select then every block carved for a descriptor is free. -/
structure NoLeak (s : SelectRun N U Chan) : Prop where
  returned : ∀ p, s.select p = .out → Returned s p
  unused : (∀ p, s.select p = .out) → ∃ free,
    Chain s.timer.tm.link s.timer.tm.procmemlist free ∧
      ∀ n, n < s.timer.tm.carved → DescRef.heap n ∈ free

/-- The condition on a step: each search of `disable_timeout` finds its entry,
or nothing later, and the interrupt handler takes no entry of an alternation
off. -/
def KeepsEntries (s : SelectRun N U Chan) : SelectAct N U Chan → Prop
  | .timer (.run p) => DisableFinds pun s.timer (.run p)
  | .timer (.handle π) => ∀ now head, s.timer.handler π = some now →
      s.timer.tm.head π = some head → s.timer.tm.time head ≤ now →
      s.timer.tm.type head = .after
  | _ => True

/-! ## Keeping account -/

/-- The calls that only a select makes. -/
def TimerPc.inSelect : TimerPc N → Bool
  | .link _ .alting | .read _ .alting | .arm _ .alting _ => true
  | .fill _ | .remove _ | .release _ _ => true
  | _ => false

/-- The descriptor of an alternation that a process has in hand. -/
def TimerPc.inHand : TimerPc N → Multiset (DescRef N)
  | .link desc .alting => {desc}
  | .release _ desc => {desc}
  | _ => 0

/-- The time for which a process is about to insert a descriptor. -/
def TimerPc.inserting (tm : Timers N U) : TimerPc N → Multiset Int
  | .fill time => {time}
  | .link desc .alting => {tm.time desc}
  | _ => 0

/-- The time for which a process is about to remove its descriptor. -/
def TimerPc.removing : TimerPc N → Multiset Int
  | .remove time => {time}
  | _ => 0

/-- The descriptors among `l` that belong to an alternation of `p`. -/
def Timers.altingOf (tm : Timers N U) (p : Fin N) (l : List (DescRef N)) :
    Multiset (DescRef N) :=
  Multiset.filter (fun d => tm.type d = .alting ∧ tm.proc d = p) l

/-- The time of a timer guard. -/
def Guard.due : Option (Guard Chan) → Multiset Int
  | some (.timer time) => {time}
  | _ => 0

/-- The times of the timer guards among the first `k` guards. -/
def Select.due (f : Select Chan) : Nat → Multiset Int
  | 0 => 0
  | k + 1 => Guard.due (f.guard k) + f.due k

/-- The times of the timer guards that a process has enabled, and not
disabled. -/
def SelectPc.due : SelectPc Chan → Multiset Int
  | .out => 0
  | .enable f k => f.due k
  | .wait f => f.due f.size
  | .disable f k => f.due k

/-- The account of process `p`, whose queue is `l`: what its select has
allocated is released, in hand or queued, and every entry is for a guard that
is still enabled. -/
structure Balance (s : SelectRun N U Chan) (l : List (DescRef N)) (p : Fin N) :
    Prop where
  account : (s.allocated p : Multiset (DescRef N)) =
    s.released p + (s.timer.pc p).inHand + s.timer.tm.altingOf p l
  times : (s.timer.pc p).inserting s.timer.tm +
      (s.timer.tm.altingOf p l).map s.timer.tm.time ≤
    (s.select p).due + (s.timer.pc p).removing
  inside : (s.timer.pc p).inSelect = true → s.select p ≠ .out

/-- The invariant of runs in which the entries are kept. -/
structure Accounts (s : SelectRun N U Chan) (q : Fin U → List (DescRef N))
    (free : List (DescRef N)) : Prop where
  owned : Owned pun s.timer q free
  balance : ∀ p, Balance s (q (pun p)) p
  kept : ∀ n, n < s.timer.tm.carved → DescRef.heap n ∈ free ∨
    (∃ π, DescRef.heap n ∈ q π) ∨ ∃ p, (s.timer.pc p).holds = some (.heap n)
  clock : 0 ≤ s.timer.clock

section Accounts

variable {pun : Fin N → Fin U} {tm tm' : Timers N U} {f : Select Chan}
  {s t : SelectRun N U Chan} {l l' : List (DescRef N)}
  {q q' : Fin U → List (DescRef N)} {free free' : List (DescRef N)} {p r : Fin N}

/-- What belongs to an alternation depends on types and processes only. -/
theorem altingOf_congr (h : ∀ d ∈ l, tm'.type d = tm.type d ∧ tm'.proc d = tm.proc d) :
    tm'.altingOf p l = tm.altingOf p l := by
  apply Multiset.filter_congr
  intro d hd
  rw [(h d hd).1, (h d hd).2]

/-- One more entry, of the process's alternation. -/
theorem altingOf_cons {d : DescRef N} (htype : tm.type d = .alting)
    (hproc : tm.proc d = p) (hl : (l' : Multiset (DescRef N)) = d ::ₘ l) :
    tm.altingOf p l' = d ::ₘ tm.altingOf p l := by
  unfold Timers.altingOf
  rw [hl, Multiset.filter_cons_of_pos]
  exact ⟨htype, hproc⟩

/-- One more entry, of something else. -/
theorem altingOf_cons_other {d : DescRef N}
    (hother : tm.type d = .after ∨ tm.proc d ≠ p)
    (hl : (l' : Multiset (DescRef N)) = d ::ₘ l) :
    tm.altingOf p l' = tm.altingOf p l := by
  unfold Timers.altingOf
  rw [hl, Multiset.filter_cons_of_neg]
  intro h
  rcases hother with htype | hproc
  · rw [htype] at h
    cases h.1
  · exact hproc h.2

theorem mem_altingOf {d : DescRef N} :
    d ∈ tm.altingOf p l ↔ d ∈ l ∧ tm.type d = .alting ∧ tm.proc d = p := by
  simp [Timers.altingOf]

/-- The guards behind the last one add nothing. -/
theorem Select.due_le_size (f : Select Chan) (k : Nat) : f.due k ≤ f.due f.size := by
  induction k with
  | zero => exact Multiset.zero_le _
  | succ k ih =>
      by_cases hk : k < f.size
      · have hmono : ∀ j, f.due (k + 1) ≤ f.due (k + 1 + j) := by
          intro j
          induction j with
          | zero => exact le_refl _
          | succ j ihj => exact le_trans ihj (Multiset.le_add_left _ _)
        obtain ⟨j, hj⟩ := Nat.exists_eq_add_of_le (Nat.succ_le_of_lt hk)
        rw [hj]
        exact hmono j
      · have hnone : f.guard k = none := by
          simp [Select.guard, hk]
        simpa [Select.due, hnone, Guard.due] using ih

/-- The second enabling is for a time before the clock began. -/
theorem Select.earliest_neg (f : Select Chan) : f.earliest < 0 := by
  have hle : ∀ choose : Int → Guard Chan → Int, (∀ time guard, choose time guard ≤ time) →
      ∀ (guards : List (Guard Chan)) (time : Int), guards.foldl choose time ≤ time := by
    intro choose hchoose guards
    induction guards with
    | nil => exact fun time => Int.le_refl _
    | cons g gs ih =>
        intro time
        exact Int.le_trans (ih _) (hchoose time g)
  have hearliest : f.earliest ≤ Select.NO_TIME := by
    apply hle
    intro time guard
    cases guard with
    | timer t =>
        dsimp only
        split <;> omega
    | _ => exact Int.le_refl _
  have hno : Select.NO_TIME = -1 := rfl
  omega

/-- Outside a select nothing is queued, and everything is released. -/
theorem Balance.out (h : Balance s l p) (hout : s.select p = .out) :
    s.timer.tm.altingOf p l = 0 ∧ (s.allocated p).Perm (s.released p) := by
  have hin : (s.timer.pc p).inSelect = false := by
    by_contra hin
    exact h.inside (by simpa using hin) hout
  have hidle : (s.timer.pc p).removing = 0 ∧ (s.timer.pc p).inHand = 0 := by
    cases hpc : s.timer.pc p with
    | link d type =>
        cases type with
        | after => exact ⟨rfl, rfl⟩
        | alting => simp [hpc, TimerPc.inSelect] at hin
    | remove time => simp [hpc, TimerPc.inSelect] at hin
    | release time d => simp [hpc, TimerPc.inSelect] at hin
    | _ => exact ⟨rfl, rfl⟩
  have hnone : s.timer.tm.altingOf p l = 0 := by
    have htimes := h.times
    rw [hout, hidle.1] at htimes
    have hle := le_trans (Multiset.le_add_left _ _) htimes
    exact Multiset.map_eq_zero.mp (Multiset.le_zero.mp hle)
  refine ⟨hnone, ?_⟩
  have haccount := h.account
  rw [hnone, hidle.2, add_zero, add_zero] at haccount
  exact Multiset.coe_eq_coe.mp haccount

/-- The accounts show that nothing leaks. -/
theorem Accounts.noLeak (h : Accounts pun s q free) : NoLeak s := by
  have hempty : ∀ p, s.select p = .out → ∀ π, ∀ d ∈ q π,
      s.timer.tm.type d = .alting → s.timer.tm.proc d ≠ p := by
    intro p hout π d hd htype hproc
    have hhome := h.owned.timers.home π d hd
    rw [hproc] at hhome
    have hmem : d ∈ s.timer.tm.altingOf p (q (pun p)) :=
      mem_altingOf.mpr ⟨hhome ▸ hd, htype, hproc⟩
    rw [((h.balance p).out hout).1] at hmem
    exact Multiset.notMem_zero d hmem
  constructor
  · intro p hout
    refine ⟨?_, ((h.balance p).out hout).2⟩
    intro hpc π l hl d hd hproc
    rw [hl.unique (h.owned.timers.chain π)] at hd
    rcases h.owned.timers.queued π d hd with ⟨_, htype⟩ | ⟨r, rfl, hr, _⟩
    · exact hempty p hout π d hd htype hproc
    · obtain rfl : r = p := hr.symm.trans hproc
      exact h.owned.not_queued (by simp [hpc, TimerPc.inAfter]) π hd
  · intro hout
    refine ⟨free, h.owned.timers.free_chain, ?_⟩
    intro n hn
    rcases h.kept n hn with hfree | ⟨π, hd⟩ | ⟨p, hp⟩
    · exact hfree
    · rcases h.owned.timers.queued π _ hd with ⟨_, htype⟩ | ⟨r, heq, _⟩
      · exact absurd rfl (hempty _ (hout _) π _ hd htype)
      · cases heq
    · have hin : (s.timer.pc p).inSelect = false := by
        by_contra hin
        exact (h.balance p).inside (by simpa using hin) (hout p)
      cases hpc : s.timer.pc p with
      | link d type =>
          rw [hpc] at hin hp
          cases type with
          | after =>
              obtain ⟨-, hafter, -⟩ := (h.owned.processes p).inserts d .after hpc
              rw [(hafter rfl).1] at hp
              cases hp
          | alting => cases hin
      | release time d =>
          rw [hpc] at hin
          cases hin
      | _ =>
          rw [hpc] at hp
          cases hp

/-- Where the process's own queue, calls and histories stay, and the fields of
its descriptors, its account stays. -/
theorem Balance.frame (h : Balance s l p) (hselect : t.select p = s.select p)
    (hpc : t.timer.pc p = s.timer.pc p) (halloc : t.allocated p = s.allocated p)
    (hrel : t.released p = s.released p)
    (hmine : t.timer.tm.altingOf p l' = s.timer.tm.altingOf p l)
    (htime : ∀ d, d ∈ s.timer.tm.altingOf p l ∨
      (s.timer.pc p).holds = some d → t.timer.tm.time d = s.timer.tm.time d) :
    Balance t l' p := by
  refine ⟨?_, ?_, ?_⟩
  · rw [halloc, hrel, hpc, hmine]
    exact h.account
  · have hins : (s.timer.pc p).inserting t.timer.tm =
        (s.timer.pc p).inserting s.timer.tm := by
      cases hs : s.timer.pc p with
      | link d type =>
          have hd := htime d (Or.inr (by simp [hs, TimerPc.holds]))
          cases type <;> simp [TimerPc.inserting, hd]
      | _ => rfl
    have hmap : (s.timer.tm.altingOf p l).map t.timer.tm.time =
        (s.timer.tm.altingOf p l).map s.timer.tm.time :=
      Multiset.map_congr rfl fun d hd => htime d (Or.inl hd)
    rw [hselect, hpc, hmine, hins, hmap]
    exact h.times
  · rw [hselect, hpc]
    exact h.inside

/-- A step of process `p`, from what it does to its own account and to the
descriptors of the others. -/
theorem Accounts.acts (h : Accounts pun s q free)
    (howned : Owned pun t.timer q' free') (hp : Balance t (q' (pun p)) p)
    (hothers : ∀ r, r ≠ p → t.select r = s.select r ∧
      t.timer.pc r = s.timer.pc r ∧ t.allocated r = s.allocated r ∧
      t.released r = s.released r)
    (hmine : ∀ r, r ≠ p → t.timer.tm.altingOf r (q' (pun r)) =
      s.timer.tm.altingOf r (q (pun r)))
    (htime : ∀ r, r ≠ p → ∀ d, d ∈ q (pun r) ∨ (s.timer.pc r).holds = some d →
      t.timer.tm.time d = s.timer.tm.time d)
    (hkept : ∀ n, n < t.timer.tm.carved → DescRef.heap n ∈ free' ∨
      (∃ π, DescRef.heap n ∈ q' π) ∨ ∃ p, (t.timer.pc p).holds = some (.heap n))
    (hclock : t.timer.clock = s.timer.clock) : Accounts pun t q' free' := by
  refine ⟨howned, ?_, hkept, hclock ▸ h.clock⟩
  intro r
  by_cases hr : r = p
  · exact hr ▸ hp
  · obtain ⟨hselect, hpc, halloc, hrel⟩ := hothers r hr
    refine (h.balance r).frame hselect hpc halloc hrel (hmine r hr) ?_
    intro d hd
    apply htime r hr
    exact hd.imp_left fun hd => (mem_altingOf.mp hd).1

/-- A process goes on, and the descriptors stay where they are. -/
theorem Accounts.moves (h : Accounts pun s q free)
    (howned : Owned pun t.timer q free) (htm : t.timer.tm = s.timer.tm)
    (hp : Balance t (q (pun p)) p)
    (hothers : ∀ r, r ≠ p → t.select r = s.select r ∧
      t.timer.pc r = s.timer.pc r ∧ t.allocated r = s.allocated r ∧
      t.released r = s.released r)
    (hholds : ∀ d, (s.timer.pc p).holds = some d → (t.timer.pc p).holds = some d)
    (hclock : t.timer.clock = s.timer.clock) : Accounts pun t q free := by
  refine h.acts howned hp hothers ?_ ?_ ?_ hclock
  · intro r _
    rw [htm]
  · intro r _ d _
    rw [htm]
  · intro n hn
    rw [htm] at hn
    rcases h.kept n hn with hfree | hq | ⟨r, hr⟩
    · exact Or.inl hfree
    · exact Or.inr (Or.inl hq)
    · refine Or.inr (Or.inr ⟨r, ?_⟩)
      by_cases hrp : r = p
      · subst hrp
        exact hholds _ hr
      · rw [(hothers r hrp).2.1]
        exact hr

/-- A select goes on while no timer call of its process is under way: it may
only count guards as disabled which have no entry. -/
theorem Accounts.goto (h : Accounts pun s q free) (hpc : s.timer.pc p = .run)
    {pc : SelectPc Chan} (hdue : (s.select p).due ≤ pc.due) :
    Accounts pun (s.goto p pc) q free := by
  refine h.moves (p := p) h.owned rfl ?_ ?_ (fun d hd => hd) rfl
  · have hb := h.balance p
    refine ⟨hb.account, ?_, ?_⟩
    · apply le_trans hb.times
      simpa [SelectRun.goto] using hdue
    · intro hin
      simp [SelectRun.goto, hpc, TimerPc.inSelect] at hin
  · intro r hr
    simp [SelectRun.goto, hr]

/-- What belongs to the alternation of `r` when one queue is changed. -/
theorem altingOf_update {π : Fin U}
    (htm : ∀ l, tm'.altingOf r l = tm.altingOf r l)
    (hl : tm.altingOf r l' = tm.altingOf r (q π)) :
    tm'.altingOf r (Function.update q π l' (pun r)) = tm.altingOf r (q (pun r)) := by
  rw [htm]
  by_cases hπ : pun r = π
  · rw [hπ, Function.update_self]
    exact hl
  · rw [Function.update_of_ne hπ]

/-- A queue changes, and no field of a descriptor. -/
theorem altingOf_requeued {π : Fin U} (h : Requeued tm tm' π l l')
    (x : List (DescRef N)) : tm'.altingOf r x = tm.altingOf r x := by
  unfold Timers.altingOf
  rw [h.type_eq, h.proc_eq]

/-- The call of `After`. -/
theorem Accounts.After (h : Accounts pun s q free)
    (hpc : s.timer.pc p = .run) (when : Int) :
    Accounts pun { s with timer := s.timer.After p when } q free := by
  have howned := h.owned.After hpc when
  have hb := h.balance p
  unfold TimerState.After at howned ⊢
  by_cases hwhen : s.timer.clock < when
  · rw [if_pos hwhen] at howned ⊢
    have hnot := h.owned.not_queued (p := p) (by simp [hpc, TimerPc.inAfter])
    -- the descriptor filled in is in no queue, and no alternation's
    have hne : ∀ π, ∀ d ∈ q π, d ≠ .stack p := by
      intro π d hd heq
      exact hnot π (heq ▸ hd)
    have hmine : ∀ r, (s.timer.tm.fill (.stack p) when p .after).altingOf r
        (q (pun r)) = s.timer.tm.altingOf r (q (pun r)) := by
      intro r
      apply altingOf_congr
      intro d hd
      simp [Timers.fill, hne _ d hd]
    refine h.acts (p := p) howned ?_ (fun r hr => by simp [hr]) ?_ ?_ ?_ rfl
    · refine ⟨?_, ?_, ?_⟩
      · have haccount := hb.account
        rw [hpc] at haccount
        simpa [hmine, TimerPc.inHand] using haccount
      · have htimes := hb.times
        rw [hpc] at htimes
        have hmap : (s.timer.tm.altingOf p (q (pun p))).map
            (s.timer.tm.fill (.stack p) when p .after).time =
            (s.timer.tm.altingOf p (q (pun p))).map s.timer.tm.time := by
          apply Multiset.map_congr rfl
          intro d hd
          simp [Timers.fill, hne _ d (mem_altingOf.mp hd).1]
        simpa [hmine, hmap, TimerPc.inserting, TimerPc.removing] using htimes
      · simp [TimerPc.inSelect]
    · intro r _
      exact hmine r
    · intro r hr d hd
      have hd' : d ≠ .stack p := by
        rcases hd with hd | hd
        · exact hne _ d hd
        · intro heq
          apply hr
          apply howned.alone r p d
          · simpa [hr] using hd
          · simp [TimerPc.holds, heq]
      simp [Timers.fill, hd']
    · intro n hn
      rcases h.kept n hn with hfree | hq | ⟨r, hr⟩
      · exact Or.inl hfree
      · exact Or.inr (Or.inl hq)
      · refine Or.inr (Or.inr ⟨r, ?_⟩)
        by_cases hrp : r = p
        · rw [hrp, hpc] at hr
          cases hr
        · simpa [hrp] using hr
  · rw [if_neg hwhen]
    exact h

/-- `insertInQueue`. -/
theorem Accounts.link (h : Accounts pun s q free) {desc : DescRef N}
    {type : TimeoutType} (hpc : s.timer.pc p = .link desc type)
    {tm' : Timers N U} {first : Bool}
    (hins : s.timer.tm.insertInQueue (pun p) desc = some (tm', first)) :
    ∃ q', Accounts pun
      { s with
        timer := { s.timer with
          tm := tm'
          pc := Function.update s.timer.pc p
            (if first then .read desc type else afterInsert type) } } q' free := by
  have howned := h.owned.link hpc hins
  have hb := h.balance p
  obtain ⟨-, hnot, hproc⟩ :=
    (h.owned.processes p).held desc (by simp [hpc, TimerPc.holds])
  obtain ⟨htype, -⟩ := (h.owned.processes p).inserts desc type hpc
  obtain ⟨hreq, -⟩ := insertInQueue_spec (h.owned.timers.chain (pun p))
    (h.owned.timers.fuel (pun p)) (hnot (pun p)) hins
  have hl : ((s.timer.tm.upTo (s.timer.tm.time desc) (q (pun p)) ++
      desc :: s.timer.tm.later (s.timer.tm.time desc) (q (pun p)) :
        List (DescRef N)) : Multiset (DescRef N)) = desc ::ₘ (q (pun p)) := by
    apply Multiset.coe_eq_coe.mpr
    have hperm := @List.perm_middle _ desc
      (s.timer.tm.upTo (s.timer.tm.time desc) (q (pun p)))
      (s.timer.tm.later (s.timer.tm.time desc) (q (pun p)))
    rwa [upTo_append_later] at hperm
  have hmem : ∀ π, ∀ d ∈ q π, d ∈ Function.update q (pun p)
      (s.timer.tm.upTo (s.timer.tm.time desc) (q (pun p)) ++
        desc :: s.timer.tm.later (s.timer.tm.time desc) (q (pun p))) π := by
    intro π d hd
    by_cases hπ : π = pun p
    · subst hπ
      rw [Function.update_self, ← Multiset.mem_coe, hl]
      exact Multiset.mem_cons_of_mem hd
    · rwa [Function.update_of_ne hπ]
  refine ⟨_, h.acts (p := p) howned ?_ (fun r hr => by simp [hr]) ?_ ?_ ?_ rfl⟩
  · have haccount := hb.account
    have htimes := hb.times
    rw [hpc] at haccount htimes
    simp only [Function.update_self]
    cases type with
    | after =>
        have hmine := altingOf_cons_other (p := p) (Or.inl htype) hl
        refine ⟨?_, ?_, ?_⟩
        · rw [altingOf_requeued hreq, hmine]
          cases first <;>
            simpa [TimerPc.inHand, afterInsert] using haccount
        · simp only [altingOf_requeued hreq, hmine, hreq.time_eq]
          cases first <;>
            simpa [TimerPc.inserting, TimerPc.removing, afterInsert] using htimes
        · cases first <;> simp [TimerPc.inSelect, afterInsert]
    | alting =>
        have hmine := altingOf_cons htype hproc hl
        refine ⟨?_, ?_, ?_⟩
        · rw [altingOf_requeued hreq, hmine, haccount]
          cases first <;>
            simp [TimerPc.inHand, afterInsert, ← Multiset.singleton_add, add_assoc]
        · simp only [altingOf_requeued hreq, hmine, hreq.time_eq]
          cases first <;>
            simpa [TimerPc.inserting, TimerPc.removing, afterInsert] using htimes
        · intro _
          exact hb.inside (by simp [hpc, TimerPc.inSelect])
  · intro r hr
    apply altingOf_update (altingOf_requeued hreq)
    exact altingOf_cons_other (Or.inr (by rw [hproc]; exact hr.symm)) hl
  · intro r _ d _
    rw [hreq.time_eq]
  · intro n hn
    simp only [hreq.carved_eq] at hn
    rcases h.kept n hn with hfree | ⟨π, hd⟩ | ⟨r, hr⟩
    · exact Or.inl hfree
    · exact Or.inr (Or.inl ⟨π, hmem π _ hd⟩)
    · by_cases hrp : r = p
      · subst hrp
        obtain rfl : desc = .heap n := by simpa [hpc, TimerPc.holds] using hr
        refine Or.inr (Or.inl ⟨pun r, ?_⟩)
        simp
      · exact Or.inr (Or.inr ⟨r, by simpa [hrp] using hr⟩)

/-- Every free descriptor stays free when one is allocated, but for that one,
and only that one is carved. -/
theorem allocate_mem_kept (free' : List (DescRef N))
    (hfree : Chain tm.link tm.procmemlist free)
    (hfree' : Chain tm.allocate_mem.2.link tm.allocate_mem.2.procmemlist free') :
    (∀ d ∈ free, d = tm.allocate_mem.1 ∨ d ∈ free') ∧
      ∀ n, n < tm.allocate_mem.2.carved →
        n < tm.carved ∨ DescRef.heap n = tm.allocate_mem.1 := by
  unfold Timers.allocate_mem at hfree' ⊢
  cases hlist : tm.procmemlist with
  | some block =>
      rw [hlist] at hfree hfree'
      cases free with
      | nil => cases hfree
      | cons d rest =>
          obtain rfl : block = d := Option.some.inj hfree.1
          obtain rfl := hfree'.unique hfree.2
          exact ⟨fun x hx => List.mem_cons.mp hx, fun n hn => Or.inl hn⟩
  | none =>
      rw [hlist] at hfree hfree'
      constructor
      · intro d hd
        cases free with
        | nil => cases hd
        | cons x rest => cases hfree.1
      · intro n hn
        simp only at hn ⊢
        by_cases heq : n = tm.carved
        · exact Or.inr (by rw [heq])
        · exact Or.inl (by omega)

/-- `enable_timeout` fills in a newly allocated descriptor. -/
theorem Accounts.fill (h : Accounts pun s q free) {time : Int}
    (hpc : s.timer.pc p = .fill time) :
    ∃ free', Accounts pun
      { s with
        timer := { s.timer with
          tm := s.timer.tm.allocate_mem.2.fill s.timer.tm.allocate_mem.1 time p
            .alting
          pc := Function.update s.timer.pc p
            (.link s.timer.tm.allocate_mem.1 .alting) }
        allocated := Function.update s.allocated p
          (s.allocated p ++ [s.timer.tm.allocate_mem.1]) } q free' := by
  obtain ⟨free', howned⟩ := h.owned.fill hpc
  have hb := h.balance p
  have hkept := allocate_mem_kept free' h.owned.timers.free_chain
    howned.timers.free_chain
  obtain ⟨-, hnq, -⟩ := (howned.processes p).held s.timer.tm.allocate_mem.1
    (by simp [TimerPc.holds])
  have hsame : s.timer.tm.allocate_mem.2.time = s.timer.tm.time ∧
      s.timer.tm.allocate_mem.2.proc = s.timer.tm.proc ∧
      s.timer.tm.allocate_mem.2.type = s.timer.tm.type := by
    unfold Timers.allocate_mem
    split <;> simp
  have hne : ∀ π, ∀ d ∈ q π, d ≠ s.timer.tm.allocate_mem.1 := by
    intro π d hd heq
    exact hnq π (heq ▸ hd)
  have hmine : ∀ r, (s.timer.tm.allocate_mem.2.fill s.timer.tm.allocate_mem.1
      time p .alting).altingOf r (q (pun r)) =
      s.timer.tm.altingOf r (q (pun r)) := by
    intro r
    apply altingOf_congr
    intro d hd
    simp [Timers.fill, hne _ d hd, hsame]
  refine ⟨free', h.acts (p := p) howned ?_ (fun r hr => by simp [hr]) ?_ ?_ ?_ rfl⟩
  · have haccount := hb.account
    have htimes := hb.times
    rw [hpc] at haccount htimes
    have hmap : (s.timer.tm.altingOf p (q (pun p))).map
        (s.timer.tm.allocate_mem.2.fill s.timer.tm.allocate_mem.1 time p
          .alting).time =
        (s.timer.tm.altingOf p (q (pun p))).map s.timer.tm.time := by
      apply Multiset.map_congr rfl
      intro d hd
      simp [Timers.fill, hne _ d (mem_altingOf.mp hd).1, hsame]
    refine ⟨?_, ?_, ?_⟩
    · simp only [Function.update_self, hmine, TimerPc.inHand,
        ← Multiset.coe_add, haccount]
      simp only [Multiset.coe_singleton, add_zero]
      exact add_right_comm _ _ _
    · have hown : (s.timer.tm.allocate_mem.2.fill s.timer.tm.allocate_mem.1 time p
          .alting).time s.timer.tm.allocate_mem.1 = time := by
        simp [Timers.fill]
      simp only [Function.update_self, hmine, hmap, TimerPc.inserting, hown]
      exact htimes
    · intro _
      exact hb.inside (by simp [hpc, TimerPc.inSelect])
  · intro r _
    exact hmine r
  · intro r hr d hd
    have hd' : d ≠ s.timer.tm.allocate_mem.1 := by
      rcases hd with hd | hd
      · exact hne _ d hd
      · intro heq
        apply hr
        apply howned.alone r p d
        · simpa [hr] using hd
        · simp [TimerPc.holds, heq]
    simp [Timers.fill, hd', hsame]
  · intro n hn
    by_cases hnew : DescRef.heap n = s.timer.tm.allocate_mem.1
    · refine Or.inr (Or.inr ⟨p, ?_⟩)
      simp [TimerPc.holds, hnew]
    · rcases h.kept n ((hkept.2 n hn).resolve_right hnew) with
        hfree | hq | ⟨r, hr⟩
      · exact Or.inl ((hkept.1 _ hfree).resolve_left hnew)
      · exact Or.inr (Or.inl hq)
      · refine Or.inr (Or.inr ⟨r, ?_⟩)
        by_cases hrp : r = p
        · rw [hrp, hpc] at hr
          cases hr
        · simpa [hrp] using hr

/-- `disable_timeout` releases the descriptor that it has removed. -/
theorem Accounts.release (h : Accounts pun s q free) {time : Int}
    {desc : DescRef N} (hpc : s.timer.pc p = .release time desc) :
    Accounts pun
      { s with
        timer := { s.timer with
          tm := s.timer.tm.release_mem desc
          pc := Function.update s.timer.pc p .run }
        released := Function.update s.released p (s.released p ++ [desc]) }
      q (desc :: free) := by
  have howned := h.owned.release hpc
  have hb := h.balance p
  refine h.acts (p := p) howned ?_ (fun r hr => by simp [hr])
    (fun r _ => rfl) (fun r _ d _ => rfl) ?_ rfl
  · have haccount := hb.account
    have htimes := hb.times
    rw [hpc] at haccount htimes
    refine ⟨?_, ?_, ?_⟩
    · simp only [Function.update_self, ← Multiset.coe_add]
      rw [haccount]
      simp only [TimerPc.inHand, Multiset.coe_singleton, add_zero]
      rfl
    · simp only [Function.update_self]
      exact htimes
    · simp [TimerPc.inSelect]
  · intro n hn
    rcases h.kept n hn with hfree | hq | ⟨r, hr⟩
    · exact Or.inl (List.mem_cons_of_mem _ hfree)
    · exact Or.inr (Or.inl hq)
    · by_cases hrp : r = p
      · subst hrp
        obtain rfl : desc = .heap n := by simpa [hpc, TimerPc.holds] using hr
        exact Or.inl List.mem_cons_self
      · exact Or.inr (Or.inr ⟨r, by simpa [hrp] using hr⟩)

/-- `removeFromQueue` takes an entry of the process out of the queue. -/
theorem Accounts.remove (h : Accounts pun s q free) {time : Int}
    (hpc : s.timer.pc p = .remove time) {tm' : Timers N U} {c : DescRef N}
    {rest : List (DescRef N)}
    (hrem : s.timer.tm.remaining time p (q (pun p)) = c :: rest)
    (hmatch : s.timer.tm.time c = time ∧ s.timer.tm.proc c = p)
    (hreq : Requeued s.timer.tm tm' (pun p) (q (pun p))
      (s.timer.tm.passed time p (q (pun p)) ++ rest)) :
    ∃ q', Accounts pun
      { s with
        timer := { s.timer with
          tm := tm'
          pc := Function.update s.timer.pc p (.release time c) } } q' free := by
  have howned := h.owned.remove hpc hrem hmatch hreq
  have hb := h.balance p
  have hsplit := s.timer.tm.passed_append_remaining time p (q (pun p))
  rw [hrem] at hsplit
  have hl : (q (pun p) : Multiset (DescRef N)) = c ::ₘ
      ((s.timer.tm.passed time p (q (pun p)) ++ rest : List (DescRef N)) :
        Multiset (DescRef N)) := by
    rw [← hsplit]
    conv_rhs => rw [hsplit]
    exact Multiset.coe_eq_coe.mpr List.perm_middle
  have hc : c ∈ q (pun p) := hsplit ▸ List.mem_append_right _ List.mem_cons_self
  have htype : s.timer.tm.type c = .alting := by
    rcases h.owned.timers.queued (pun p) c hc with ⟨_, htype⟩ | ⟨r, rfl, hr, _⟩
    · exact htype
    · obtain rfl : r = p := hr.symm.trans hmatch.2
      exact absurd hc (h.owned.not_queued (by simp [hpc, TimerPc.inAfter]) _)
  have hmine := altingOf_cons htype hmatch.2 hl
  refine ⟨_, h.acts (p := p) howned ?_ (fun r hr => by simp [hr]) ?_ ?_ ?_ rfl⟩
  · have haccount := hb.account
    have htimes := hb.times
    rw [hpc, hmine] at haccount htimes
    simp only [Function.update_self]
    refine ⟨?_, ?_, ?_⟩
    · rw [altingOf_requeued hreq, haccount]
      simp [TimerPc.inHand, ← Multiset.singleton_add, add_assoc]
    · simp only [altingOf_requeued hreq, hreq.time_eq]
      rw [Multiset.map_cons, hmatch.1] at htimes
      simpa [TimerPc.inserting, TimerPc.removing, add_comm _ ({time} : Multiset Int),
        Multiset.singleton_add] using htimes
    · intro _
      exact hb.inside (by simp [hpc, TimerPc.inSelect])
  · intro r hr
    apply altingOf_update (altingOf_requeued hreq)
    exact (altingOf_cons_other (Or.inr (by rw [hmatch.2]; exact hr.symm)) hl).symm
  · intro r _ d _
    rw [hreq.time_eq]
  · intro n hn
    simp only [hreq.carved_eq] at hn
    rcases h.kept n hn with hfree | ⟨π, hd⟩ | ⟨r, hr⟩
    · exact Or.inl hfree
    · by_cases hcn : c = .heap n
      · exact Or.inr (Or.inr ⟨p, by simp [TimerPc.holds, hcn]⟩)
      · refine Or.inr (Or.inl ⟨π, ?_⟩)
        by_cases hπ : π = pun p
        · subst hπ
          rw [Function.update_self]
          rw [← Multiset.mem_coe, hl, Multiset.mem_cons] at hd
          exact Multiset.mem_coe.mp (hd.resolve_left (Ne.symm hcn))
        · rwa [Function.update_of_ne hπ]
    · refine Or.inr (Or.inr ⟨r, ?_⟩)
      by_cases hrp : r = p
      · rw [hrp, hpc] at hr
        cases hr
      · simpa [hrp] using hr

/-- The queues and the free list are what the timers say. -/
theorem owned_same {u v : TimerState N U} (h : Owned pun u q free)
    (h' : Owned pun v q' free') (htm : v.tm = u.tm) : Owned pun v q free := by
  have hq : q' = q := by
    funext π
    exact (h'.timers.chain π).unique (htm ▸ h.timers.chain π)
  have hfree : free' = free :=
    h'.timers.free_chain.unique (htm ▸ h.timers.free_chain)
  exact hq ▸ hfree ▸ h'

/-- A process with nothing to insert or to release goes on so. -/
theorem Accounts.passes (h : Accounts pun s q free) {ts : TimerState N U}
    {pc : TimerPc N} (howned : ∃ q' free', Owned pun ts q' free')
    (htm : ts.tm = s.timer.tm) (hclock : ts.clock = s.timer.clock)
    (hpc : ts.pc = Function.update s.timer.pc p pc)
    (hbefore : (s.timer.pc p).inHand = 0 ∧
      (s.timer.pc p).inserting s.timer.tm = 0 ∧ (s.timer.pc p).removing = 0 ∧
      (s.timer.pc p).holds = none)
    (hafter : pc.inHand = 0 ∧ pc.inserting s.timer.tm = 0)
    (hin : pc.inSelect = true → (s.timer.pc p).inSelect = true) :
    Accounts pun { s with timer := ts } q free := by
  obtain ⟨q', free', howned'⟩ := howned
  have hb := h.balance p
  refine h.moves (p := p) (owned_same h.owned howned' htm) htm ?_ ?_ ?_ hclock
  · have haccount := hb.account
    have htimes := hb.times
    rw [hbefore.1] at haccount
    rw [hbefore.2.1, hbefore.2.2.1, add_zero] at htimes
    refine ⟨?_, ?_, ?_⟩
    · rw [hpc, htm, Function.update_self, hafter.1]
      exact haccount
    · rw [hpc, htm, Function.update_self, hafter.2]
      exact le_trans htimes (Multiset.le_add_right _ _)
    · rw [hpc, Function.update_self]
      exact fun hi => hb.inside (hin hi)
  · intro r hr
    simp [hpc, hr]
  · intro d hd
    rw [hbefore.2.2.2] at hd
    cases hd

/-- The search of `disable_timeout` has come to the end: there was no entry of
that time. -/
theorem Accounts.removeNone (h : Accounts pun s q free) {time : Int}
    (hpc : s.timer.pc p = .remove time)
    (hrem : s.timer.tm.remaining time p (q (pun p)) = [])
    (howned : ∃ q' free', Owned pun
      { s.timer with pc := Function.update s.timer.pc p .run } q' free') :
    Accounts pun
      { s with timer := { s.timer with
          pc := Function.update s.timer.pc p .run } } q free := by
  obtain ⟨q', free', howned'⟩ := howned
  have hb := h.balance p
  refine h.moves (p := p) (owned_same h.owned howned' rfl) rfl ?_ ?_ ?_ rfl
  · have haccount := hb.account
    have htimes := hb.times
    rw [hpc] at haccount htimes
    have hsplit := s.timer.tm.passed_append_remaining time p (q (pun p))
    rw [hrem, List.append_nil] at hsplit
    have hno : time ∉ (s.timer.tm.altingOf p (q (pun p))).map s.timer.tm.time := by
      intro hmem
      obtain ⟨d, hd, htime⟩ := Multiset.mem_map.mp hmem
      obtain ⟨hdq, _, hproc⟩ := mem_altingOf.mp hd
      rcases mem_passed (hsplit.symm ▸ hdq) with hlt | ⟨_, hne⟩
      · omega
      · exact hne hproc
    refine ⟨?_, ?_, ?_⟩
    · simp only [Function.update_self]
      exact haccount
    · simp only [TimerPc.inserting, TimerPc.removing, zero_add] at htimes
      rw [add_comm, Multiset.singleton_add,
        Multiset.le_cons_of_notMem hno] at htimes
      simpa [TimerPc.inserting, TimerPc.removing] using htimes
    · simp [TimerPc.inSelect]
  · intro r hr
    simp [hr]
  · intro d hd
    rw [hpc] at hd
    cases hd

/-- The next step of the timer call that a process is in. -/
theorem Accounts.run (h : Accounts pun s q free)
    (hfinds : DisableFinds pun s.timer (.run p)) {ts : TimerState N U}
    (hstep : s.timer.run pun p = some ts) :
    ∃ q' free', Accounts pun
      { s with
        timer := ts
        allocated := Function.update s.allocated p (s.allocated p ++ s.allocates p)
        released := Function.update s.released p (s.released p ++ s.releases p) }
      q' free' := by
  have howned := h.owned.run hfinds hstep
  have hsame : s.allocates p = [] → s.releases p = [] →
      ({ s with
        timer := ts
        allocated := Function.update s.allocated p (s.allocated p ++ s.allocates p)
        released := Function.update s.released p (s.released p ++ s.releases p) } :
        SelectRun N U Chan) = { s with timer := ts } := by
    intro halloc hrel
    simp [halloc, hrel]
  unfold TimerState.run at hstep
  cases hpc : s.timer.pc p with
  | run =>
      rw [hpc] at hstep
      cases hstep
  | link desc type =>
      rw [hpc] at hstep
      obtain ⟨⟨tm', first⟩, hins, rfl⟩ := Option.map_eq_some_iff.mp hstep
      rw [hsame (by simp [SelectRun.allocates, hpc])
        (by simp [SelectRun.releases, hpc])]
      obtain ⟨q', hq'⟩ := h.link hpc hins
      exact ⟨q', free, hq'⟩
  | read desc type =>
      rw [hpc] at hstep
      cases hstep
      rw [hsame (by simp [SelectRun.allocates, hpc])
        (by simp [SelectRun.releases, hpc])]
      refine ⟨q, free, h.passes (p := p) howned rfl rfl rfl ?_ ⟨rfl, rfl⟩ ?_⟩
      · simp [hpc, TimerPc.inHand, TimerPc.inserting, TimerPc.removing, TimerPc.holds]
      · rw [hpc]
        cases type <;> simp [TimerPc.inSelect]
  | arm desc type now =>
      rw [hpc] at hstep
      cases hstep
      rw [hsame (by simp [SelectRun.allocates, hpc])
        (by simp [SelectRun.releases, hpc])]
      refine ⟨q, free, h.passes (p := p) howned rfl rfl rfl ?_ ?_ ?_⟩
      · simp [hpc, TimerPc.inHand, TimerPc.inserting, TimerPc.removing, TimerPc.holds]
      · cases type <;> exact ⟨rfl, rfl⟩
      · cases type <;> simp [afterInsert, TimerPc.inSelect]
  | relinquish =>
      rw [hpc] at hstep
      rw [hsame (by simp [SelectRun.allocates, hpc])
        (by simp [SelectRun.releases, hpc])]
      refine ⟨q, free, ?_⟩
      dsimp only at hstep
      split at hstep
      · cases hstep
        apply h.passes (p := p) howned rfl rfl rfl _ ⟨rfl, rfl⟩
        · simp [TimerPc.inSelect]
        · simp [hpc, TimerPc.inHand, TimerPc.inserting, TimerPc.removing, TimerPc.holds]
      · cases hstep
        apply h.passes (p := p) howned rfl rfl rfl _ ⟨rfl, rfl⟩
        · simp [TimerPc.inSelect]
        · simp [hpc, TimerPc.inHand, TimerPc.inserting, TimerPc.removing, TimerPc.holds]
  | wait =>
      rw [hpc] at hstep
      rw [hsame (by simp [SelectRun.allocates, hpc])
        (by simp [SelectRun.releases, hpc])]
      refine ⟨q, free, ?_⟩
      dsimp only at hstep
      split at hstep
      · cases hstep
        apply h.passes (p := p) howned rfl rfl rfl _ ⟨rfl, rfl⟩
        · simp [TimerPc.inSelect]
        · simp [hpc, TimerPc.inHand, TimerPc.inserting, TimerPc.removing, TimerPc.holds]
      · cases hstep
  | fill time =>
      rw [hpc] at hstep
      cases hstep
      obtain ⟨free', hfree'⟩ := h.fill hpc
      refine ⟨q, free', ?_⟩
      simpa [SelectRun.allocates, SelectRun.releases, hpc] using hfree'
  | remove time =>
      rw [hpc] at hstep
      obtain ⟨⟨tm', found⟩, hr, rfl⟩ := Option.map_eq_some_iff.mp hstep
      rw [hsame (by simp [SelectRun.allocates, hpc])
        (by simp [SelectRun.releases, hpc])]
      rcases removeFromQueue_some (h.owned.timers.chain (pun p))
        (h.owned.timers.fuel (pun p)) hr with
        ⟨hrem, rfl, rfl⟩ | ⟨c, rest, hrem, rfl, hcase⟩
      · exact ⟨q, free, h.removeNone hpc hrem howned⟩
      · rcases hcase with ⟨htime, hproc, hreq⟩ | ⟨hmatch, rfl⟩
        · obtain ⟨q', hq'⟩ := h.remove hpc hrem ⟨htime, hproc⟩ hreq
          exact ⟨q', free, hq'⟩
        · -- the search would have come to another entry
          obtain ⟨l, hl, hf⟩ := hfinds time hpc
          rw [hl.unique (h.owned.timers.chain (pun p)),
            (h.owned.timers.ordered (pun p)).finds_iff, hrem] at hf
          obtain hnil | ⟨c', rest', heq, hmatch'⟩ := hf
          · cases hnil
          · cases heq
            exact absurd hmatch' hmatch
  | release time desc =>
      rw [hpc] at hstep
      cases hstep
      refine ⟨q, desc :: free, ?_⟩
      simpa [SelectRun.allocates, SelectRun.releases, hpc] using h.release hpc

/-- Nothing of the descriptors or the processes' places changes. -/
theorem Accounts.still (h : Accounts pun s q free) {ts : TimerState N U}
    (howned : ∃ q' free', Owned pun ts q' free') (htm : ts.tm = s.timer.tm)
    (hpc : ts.pc = s.timer.pc) (hclock : s.timer.clock ≤ ts.clock) :
    Accounts pun { s with timer := ts } q free := by
  obtain ⟨q', free', howned'⟩ := howned
  refine ⟨owned_same h.owned howned' htm, ?_, ?_, Int.le_trans h.clock hclock⟩
  · intro r
    refine (h.balance r).frame rfl (congrFun hpc r) rfl rfl ?_ ?_
    · simp only [htm]
    · intro d _
      simp only [htm]
  · simp only [htm, hpc]
    exact h.kept

/-- The interrupt handler takes the descriptor of an `After` off. -/
theorem Accounts.expire (h : Accounts pun s q free) {π : Fin U}
    {head : DescRef N} (hhead : s.timer.tm.head π = some head)
    (hafter : s.timer.tm.type head = .after) :
    ∃ q', Accounts pun
      { s with
        timer := { s.timer with
          tm := s.timer.tm.removeHead π head
          sched_state := match s.timer.tm.type head with
            | .after =>
                Function.update s.timer.sched_state (s.timer.tm.proc head) .ready
            | .alting => s.timer.sched_state } } q' free := by
  obtain ⟨rest, howned⟩ := h.owned.expire hhead
  have hchain := h.owned.timers.chain π
  cases hq : q π with
  | nil =>
      rw [hq] at hchain
      rw [chain_nil.mp hchain] at hhead
      cases hhead
  | cons d l =>
      rw [hq] at hchain
      obtain rfl : head = d := Option.some.inj (hhead.symm.trans hchain.1)
      have hrest : rest = l := by
        have hold := (removeHead_requeued hchain).chain
        have hnew := howned.timers.chain π
        rw [Function.update_self] at hnew
        exact hnew.unique hold
      subst hrest
      refine ⟨_, howned, ?_, ?_, h.clock⟩
      · intro r
        refine (h.balance r).frame rfl rfl rfl rfl ?_ ?_
        · apply altingOf_update (fun _ => rfl)
          rw [hq]
          exact (altingOf_cons_other (Or.inl hafter) rfl).symm
        · intro d _
          rfl
      · intro n hn
        rcases h.kept n hn with hfree | ⟨ρ, hd⟩ | hr
        · exact Or.inl hfree
        · refine Or.inr (Or.inl ⟨ρ, ?_⟩)
          by_cases hρ : ρ = π
          · subst hρ
            rw [hq] at hd
            rcases List.mem_cons.mp hd with rfl | hd
            · rcases h.owned.timers.queued ρ _ (hq ▸ List.mem_cons_self) with
                ⟨_, halting⟩ | ⟨_, heq, _⟩
              · rw [hafter] at halting
                cases halting
              · cases heq
            · simpa using hd
          · simpa [hρ] using hd
        · exact Or.inr (Or.inr hr)

/-- A step of the timers. -/
theorem Accounts.timerStep (h : Accounts pun s q free) {act : TimerAct N U}
    (hkeeps : KeepsEntries pun s (.timer act))
    (hstep : s.timerStep pun act = some t) :
    ∃ q' free', Accounts pun t q' free' := by
  cases act with
  | After p when =>
      simp only [SelectRun.timerStep] at hstep
      split at hstep
      · obtain ⟨ts, hts, rfl⟩ := Option.map_eq_some_iff.mp hstep
        cases TimerState.step_cases hts with
        | After hpc henabled => exact ⟨q, free, h.After hpc when⟩
      · cases hstep
  | enable_timeout p time => cases hstep
  | disable_timeout p time => cases hstep
  | run p =>
      obtain ⟨ts, hts, rfl⟩ := Option.map_eq_some_iff.mp hstep
      obtain ⟨-, hrun⟩ := Option.ite_none_right_eq_some.mp hts
      exact h.run hkeeps hrun
  | tick δ =>
      simp only [SelectRun.timerStep] at hstep
      obtain ⟨ts, hts, rfl⟩ := Option.map_eq_some_iff.mp hstep
      have howned := h.owned.step (by trivial) hts
      cases hts
      refine ⟨q, free, h.still howned rfl rfl ?_⟩
      simp only
      omega
  | interrupt π =>
      obtain ⟨ts, hts, rfl⟩ := Option.map_eq_some_iff.mp hstep
      have howned := h.owned.step (by trivial) hts
      cases TimerState.step_cases hts with
      | interrupt henabled hpending =>
          exact ⟨q, free, h.still howned rfl rfl (Int.le_refl _)⟩
  | handle π =>
      obtain ⟨ts, hts, rfl⟩ := Option.map_eq_some_iff.mp hstep
      have howned := h.owned.step (by trivial) hts
      obtain ⟨now, hnow, rfl⟩ := Option.map_eq_some_iff.mp hts
      unfold TimerState.handle at howned ⊢
      cases hhead : s.timer.tm.head π with
      | none =>
          rw [hhead] at howned
          exact ⟨q, free, h.still howned rfl rfl (Int.le_refl _)⟩
      | some head =>
          rw [hhead] at howned
          dsimp only at howned ⊢
          by_cases hdue : s.timer.tm.time head ≤ now
          · rw [if_pos hdue]
            obtain ⟨q', hq'⟩ := h.expire hhead (hkeeps now head hnow hhead hdue)
            exact ⟨q', free, hq'⟩
          · rw [if_neg hdue] at howned ⊢
            exact ⟨q, free, h.still howned rfl rfl (Int.le_refl _)⟩

/-- A select calls `enable_timeout` for a guard of time `time`. -/
theorem Accounts.enable_timeout (h : Accounts pun s q free) {time : Int}
    {found next : SelectPc Chan} (hpc : s.timer.pc p = .run)
    (hfound : s.timer.clock ≥ time → (s.select p).due ≤ found.due)
    (hnext : ¬ s.timer.clock ≥ time →
      next ≠ .out ∧ {time} + (s.select p).due ≤ next.due)
    (hstep : s.enable_timeout pun p time found next = some t) :
    Accounts pun t q free := by
  obtain ⟨ts, hts, rfl⟩ := Option.map_eq_some_iff.mp hstep
  obtain ⟨q', free', howned⟩ :=
    h.owned.step (by trivial) hts
  cases TimerState.step_cases hts
  unfold TimerState.enable_timeout at howned ⊢
  by_cases hready : s.timer.clock ≥ time
  · rw [if_pos hready, if_pos hready]
    exact h.goto hpc (hfound hready)
  · rw [if_neg hready] at howned
    rw [if_neg hready, if_neg hready]
    obtain ⟨hout, hdue⟩ := hnext hready
    have hb := h.balance p
    refine h.moves (p := p) (owned_same h.owned howned rfl) rfl ?_ ?_ ?_ rfl
    · have haccount := hb.account
      have htimes := hb.times
      rw [hpc] at haccount htimes
      refine ⟨?_, ?_, ?_⟩
      · simp only [SelectRun.goto, Function.update_self]
        exact haccount
      · simp only [SelectRun.goto, Function.update_self, TimerPc.inserting,
          TimerPc.removing, add_zero]
        simp only [TimerPc.inserting, TimerPc.removing, zero_add,
          add_zero] at htimes
        exact le_trans (add_le_add_right htimes _) hdue
      · intro _
        simpa [SelectRun.goto] using hout
    · intro r hr
      simp [SelectRun.goto, hr]
    · intro d hd
      rw [hpc] at hd
      cases hd

/-- A select calls `disable_timeout` for a guard of time `time`. -/
theorem Accounts.disable_timeout (h : Accounts pun s q free) {time : Int}
    {f : Select Chan} {k : Nat} (hpc : s.timer.pc p = .run)
    (hdue : (s.select p).due ≤ {time} + f.due k) {ts : TimerState N U}
    (hts : s.timer.step pun (.disable_timeout p time) = some ts) :
    Accounts pun ({ s with timer := ts }.goto p (.disable f k)) q free := by
  obtain ⟨q', free', howned⟩ :=
    h.owned.step (by trivial) hts
  cases TimerState.step_cases hts
  have hb := h.balance p
  refine h.moves (p := p) (owned_same h.owned howned rfl) rfl ?_ ?_ ?_ rfl
  · have haccount := hb.account
    have htimes := hb.times
    rw [hpc] at haccount htimes
    refine ⟨?_, ?_, ?_⟩
    · simp only [SelectRun.goto, Function.update_self]
      exact haccount
    · simp only [SelectRun.goto, Function.update_self, TimerPc.inserting,
        TimerPc.removing, SelectPc.due]
      simp only [TimerPc.inserting, TimerPc.removing, add_zero] at htimes
      rw [add_comm (f.due k)]
      exact le_trans htimes hdue
    · intro _
      simp [SelectRun.goto]
  · intro r hr
    simp [SelectRun.goto, hr]
  · intro d hd
    rw [hpc] at hd
    cases hd

/-- The next round of the enabling loop. -/
theorem Accounts.enable (h : Accounts pun s q free) {k : Nat} {ready : Bool}
    (hpc : s.timer.pc p = .run) (hselect : s.select p = .enable f k)
    (hstep : s.enable pun p f k ready = some t) : Accounts pun t q free := by
  have hdue : (s.select p).due = f.due k := by
    rw [hselect]
    rfl
  have hmono : f.due k ≤ f.due (k + 1) := Multiset.le_add_left _ _
  unfold SelectRun.enable at hstep
  split at hstep <;> rename_i hguard
  · cases hstep
    apply h.goto hpc
    rw [hdue]
    split <;> exact hmono
  · cases hstep
    apply h.goto hpc
    rw [hdue]
    exact hmono
  · refine h.enable_timeout hpc ?_ ?_ hstep
    · intro _
      rw [hdue]
      exact hmono
    · intro _
      refine ⟨by simp, ?_⟩
      rw [hdue]
      simp [SelectPc.due, Select.due, hguard, Guard.due]
  · split at hstep
    · refine h.enable_timeout hpc ?_ ?_ hstep
      · intro _
        rw [hdue]
        exact f.due_le_size k
      · -- the clock has never been before zero
        intro hlate
        have hneg := f.earliest_neg
        have hclock := h.clock
        omega
    · cases hstep
      apply h.goto hpc
      rw [hdue]
      exact f.due_le_size k

/-- The next round of the disabling loop. -/
theorem Accounts.disable (h : Accounts pun s q free) {k : Nat}
    (hpc : s.timer.pc p = .run) (hselect : s.select p = .disable f k)
    (hstep : s.disable pun p f k = some t) : Accounts pun t q free := by
  have hdue : (s.select p).due = f.due k := by
    rw [hselect]
    rfl
  cases k with
  | zero =>
      cases hstep
      apply h.goto hpc
      rw [hdue]
      exact Multiset.zero_le _
  | succ k =>
      simp only [SelectRun.disable] at hstep
      split at hstep <;> rename_i hguard
      · cases hstep
        apply h.goto hpc
        rw [hdue]
        simp [Select.due, SelectPc.due, hguard, Guard.due]
      · cases hstep
        apply h.goto hpc
        rw [hdue]
        simp [Select.due, SelectPc.due, hguard, Guard.due]
      · obtain ⟨ts, hts, rfl⟩ := Option.map_eq_some_iff.mp hstep
        refine h.disable_timeout hpc ?_ hts
        rw [hdue]
        simp [Select.due, hguard, Guard.due]
      · cases hstep

/-- A select begins with a clean account. -/
theorem Accounts.select (h : Accounts pun s q free)
    (hout : s.select p = .out) (hpc : s.timer.pc p = .run) :
    Accounts pun
      { s.goto p (.enable f 0) with
        allocated := Function.update s.allocated p []
        released := Function.update s.released p [] } q free := by
  obtain ⟨hnone, -⟩ := (h.balance p).out hout
  refine h.moves (p := p) h.owned rfl ?_ ?_ (fun d hd => hd) rfl
  · refine ⟨?_, ?_, ?_⟩
    · simp [SelectRun.goto, hnone, hpc, TimerPc.inHand]
    · simp only [SelectRun.goto, hnone, hpc, TimerPc.inserting, Multiset.map_zero,
        add_zero]
      exact Multiset.zero_le _
    · simp [SelectRun.goto]
  · intro r hr
    simp [SelectRun.goto, hr]

/-- **Every step that keeps the entries keeps the accounts.** -/
theorem Accounts.step (h : Accounts pun s q free) {act : SelectAct N U Chan}
    (hkeeps : KeepsEntries pun s act) (hstep : s.step pun act = some t) :
    ∃ q' free', Accounts pun t q' free' := by
  cases act with
  | timer act => exact h.timerStep hkeeps hstep
  | select p f =>
      simp only [SelectRun.step] at hstep
      split at hstep
      · rename_i hout
        split at hstep
        · rename_i hpc
          cases hstep
          exact ⟨q, free, h.select hout hpc⟩
        · cases hstep
      · cases hstep
  | guard p ready =>
      simp only [SelectRun.step] at hstep
      split at hstep
      · rename_i hpc
        split at hstep <;> rename_i hselect
        · cases hstep
        · exact ⟨q, free, h.enable hpc hselect hstep⟩
        · cases hstep
          refine ⟨q, free, h.goto hpc ?_⟩
          rw [hselect]
          exact le_refl _
        · exact ⟨q, free, h.disable hpc hselect hstep⟩
      · cases hstep

theorem accounts_init (proc : Fin N) :
    Accounts pun (SelectRun.init N U Chan proc) (fun _ => []) [] := by
  refine ⟨owned_init proc, ?_, ?_, Int.le_refl _⟩
  · intro p
    refine ⟨rfl, Multiset.zero_le _, ?_⟩
    simp [SelectRun.init, TimerState.init, TimerPc.inSelect]
  · intro n hn
    simp [SelectRun.init, TimerState.init, timer_init] at hn

end Accounts

/-- **Alternations do not leak** in runs in which each search of
`disable_timeout` finds its entry, or nothing later, and the interrupt handler
takes off no entry of an alternation: whenever a select has returned, no entry
of its process is queued and what it allocated is released, and between selects
all descriptors are free. -/
theorem alternations_do_not_leak (proc : Fin N) {acts : List (SelectAct N U Chan)}
    (hkeeps : Along (SelectRun.step pun) (KeepsEntries pun)
      (SelectRun.init N U Chan proc) acts) :
    Throughout (SelectRun.step pun) NoLeak (SelectRun.init N U Chan proc) acts := by
  apply throughout_of_along (I := fun s => ∃ q free, Accounts pun s q free) _ _ hkeeps
  · exact ⟨_, _, accounts_init proc⟩
  · intro s act t hI hC hstep
    obtain ⟨q, free, h⟩ := hI
    exact h.step hC hstep
  · intro s hI
    obtain ⟨q, free, h⟩ := hI
    exact h.noLeak

/-- A select enables a timer guard for 10, goes on for another reason, and
disables the guard. -/
theorem alternations_do_not_leak_one_guard :
    let acts : List (SelectAct 1 1 Unit) :=
      [.select 0 ⟨[.timer 10], 0⟩, .guard 0 false, .timer (.run 0), .timer (.run 0),
        .timer (.run 0), .timer (.run 0), .guard 0 false, .guard 0 false,
        .guard 0 false, .timer (.run 0), .timer (.run 0), .guard 0 false]
    (∃ t, exec (SelectRun.step fun _ => 0) (SelectRun.init 1 1 Unit 0) acts = some t ∧
      t.released 0 = [.heap 0]) ∧
    Throughout (SelectRun.step fun _ => 0) NoLeak (SelectRun.init 1 1 Unit 0) acts := by
  refine ⟨⟨_, rfl, rfl⟩, alternations_do_not_leak (fun _ => 0) 0 ?_⟩
  iterate 2
    refine ⟨trivial, ?_⟩
    intro _ hstep
    cases hstep
  iterate 4
    refine ⟨fun _ hpc => (by cases hpc), ?_⟩
    intro _ hstep
    cases hstep
  iterate 3
    refine ⟨trivial, ?_⟩
    intro _ hstep
    cases hstep
  refine ⟨?_, ?_⟩
  · intro _ hpc
    cases hpc
    exact ⟨[.heap 0], ⟨rfl, rfl⟩, Or.inl ⟨.heap 0, by simp, rfl, rfl⟩⟩
  intro _ hstep
  cases hstep
  refine ⟨fun _ hpc => (by cases hpc), ?_⟩
  intro _ hstep
  cases hstep
  refine ⟨trivial, ?_⟩
  intro _ hstep
  cases hstep
  trivial

/-- The interrupt handler takes the entry of an expired guard off, and the
select returns without releasing it. -/
theorem expired_guard_leaks :
    ¬ ∀ acts : List (SelectAct 1 1 Unit),
      Throughout (SelectRun.step fun _ => 0) NoLeak (SelectRun.init 1 1 Unit 0)
        acts := by
  intro hall
  have h := (hall [.select 0 ⟨[.timer 10], 0⟩, .guard 0 false, .timer (.run 0),
    .timer (.run 0), .timer (.run 0), .timer (.run 0), .guard 0 false,
    .timer (.tick 10), .timer (.interrupt 0), .timer (.handle 0),
    .timer (.handle 0), .guard 0 false, .guard 0 false, .timer (.run 0),
    .guard 0 false]).last rfl
  have hlost := (h.returned 0 rfl).balanced.length_eq
  cases hlost

end Cxp
