import Cxp.ElapsedClock
import Cxp.TimerRun

/-!
# The table of timers (`hardware.c`, `sched.c`, `timer.c`)

Each processor has an entry for either type of timer in a table of identifiers.
During the initialisation processor 0 creates the elapsed-time timer and its
timeout timer, and then activates the other processors, each of which creates
its timeout timer.  The identifiers are what the operating system gives out.

`read_timer` looks in the table under the processor of its caller.  The entry
for the elapsed-time timer is filled on processor 0 only.

* Every timer that is set has been created, on all processors (`Booted`).
* All calls read the one timer that drives `currentTime`, so that two that read
  it at one instant agree, exactly if each of them is made on processor 0 or the
  timer's identifier is what an untouched entry holds (`clock_shared_iff`).
-/

namespace Cxp

open Run

variable {N U : Nat}

/-- The distinct timers of a processor. -/
inductive TimerType
  | elapsed
  | timeout
  deriving DecidableEq

/-- Who uses timers: the processes, and the handler of the timeout interrupts of
each processor. -/
inductive Caller (N U : Nat)
  | process (p : Fin N)
  | handler (π : Fin U)
  deriving DecidableEq

/-- The processor on which a caller runs. -/
def Caller.cpu (pun : Fin N → Fin U) : Caller N U → Fin U
  | .process p => pun p
  | .handler π => π

/-- What a caller reads the time for. -/
inductive Purpose
  /-- `GetCurrentTime`, `Now` -/
  | now
  | After (when : Int)
  | timeout_ready (time : Int)
  | enable_timeout (time : Int)
  | disable_timeout (time : Int)
  /-- the entry of this time has become the first one -/
  | insertInQueue (time : Int)
  | handle_timeout_interrupt

/-- The caller calls it by itself. -/
def Purpose.calledBy : Purpose → Caller N U → Bool
  | .insertInQueue _, _ => false
  | .handle_timeout_interrupt, .handler _ => true
  | .handle_timeout_interrupt, .process _ => false
  | _, .process _ => true
  | _, .handler _ => false

/-- Where a caller stands. -/
inductive CallerPc
  | outside
  /-- in `GetCurrentTime` -/
  | reads (purpose : Purpose)
  /-- about to enter `insertInQueue` -/
  | insert (time : Int)
  /-- about to enter `removeFromQueue` -/
  | remove (time : Int)
  /-- about to set the timeout timer -/
  | set (diff : Int)

/-- Where a processor stands in its initialisation. -/
inductive InitPc
  | dormant
  /-- in `define_interrupt_handlers`, about to create the elapsed-time timer -/
  | elapsed
  /-- about to start it -/
  | start
  /-- about to create the timeout timer -/
  | timeout
  | barrier
  deriving DecidableEq

/-- A use of the table: the type asked for, and the identifier found. -/
structure TimerUse where
  timerType : TimerType
  id : Nat

/-- What `GetCurrentTime` has returned, the true time of its reading of the timer,
and how much `currentTime` was behind then. -/
structure Sample where
  readAt : Int
  behind : Int
  value : Int

/-- The timers.  `timer` is the table, `created` what `init_timer` has created,
`driver` the timer whose expiry adds to `currentTime`; the others fire at
`expires`.  Of the entries of `timeQue` the times and processes are kept.
`plotz` says that the program has come to its end in `plotz`. -/
structure TimerTable (N U : Nat) where
  timer : Fin U → TimerType → Nat
  created : List Nat
  driver : Option Nat
  expires : Nat → Option Int
  boot : Fin U → InitPc
  ticking : Bool
  clock : Clock (Caller N U)
  timeQue : Fin U → List (Int × Fin N)
  pc : Caller N U → CallerPc
  uses : List TimerUse
  samples : List Sample
  plotz : Bool

/-- What happens next. -/
inductive TableAct (N U : Nat)
  /-- the next step of the initialisation of a processor; `id` is what
  `timer_create` gives it -/
  | init (π : Fin U) (id : Nat)
  | activate_processor (π : Fin U)
  /-- the elapsed-time timer and its interrupt -/
  | clock (act : ClockAct (Caller N U))
  | call (c : Caller N U) (purpose : Purpose)
  /-- the next step of the call that a caller is in -/
  | go (c : Caller N U)

namespace TimerTable

/-- Processor 0 is at the beginning of `define_interrupt_handlers`, with its
interrupts disabled.  The table is static storage. -/
def init (N U : Nat) : TimerTable N U where
  timer := fun _ _ => 0
  created := []
  driver := none
  expires := fun _ => none
  boot := fun π => if π.val = 0 then .elapsed else .dormant
  ticking := false
  clock := { Clock.init (Caller N U) with enabled := false }
  timeQue := fun _ => []
  pc := fun _ => .outside
  uses := []
  samples := []
  plotz := false

/-- `timer_create` for an entry of the table. -/
def init_timer (s : TimerTable N U) (π : Fin U) (timerType : TimerType) (id : Nat) :
    TimerTable N U :=
  { s with
    timer := Function.update s.timer π (Function.update (s.timer π) timerType id)
    created := id :: s.created }

/-- The entry of the table is looked up, and its timer used. -/
def use (s : TimerTable N U) (π : Fin U) (timerType : TimerType) : TimerTable N U :=
  { s with
    uses := ⟨timerType, s.timer π timerType⟩ :: s.uses
    plotz := !s.created.contains (s.timer π timerType) }

/-- The next step of the initialisation of a processor.  A new identifier is not
that of another timer. -/
def boots (s : TimerTable N U) (π : Fin U) (id : Nat) : Option (TimerTable N U) :=
  match s.boot π with
  | .elapsed =>
      if s.created.contains id then none
      else some { s.init_timer π .elapsed id with
        driver := some id
        boot := Function.update s.boot π .start }
  | .start =>
      some { s.use π .elapsed with
        ticking := true
        boot := Function.update s.boot π .timeout }
  | .timeout =>
      if s.created.contains id then none
      else some { s.init_timer π .timeout id with
        boot := Function.update s.boot π .barrier }
  | _ => none

/-- Processor 0 activates the others one after the other. -/
def activate_processor (s : TimerTable N U) (π : Fin U) : Option (TimerTable N U) :=
  if s.boot π = .dormant && (List.finRange U).all fun ρ =>
      π.val ≤ ρ.val || (s.boot ρ ≠ .dormant && (ρ.val ≠ 0 || s.boot ρ = .barrier)) then
    some { s with boot := Function.update s.boot π .timeout }
  else none

/-- All processors have reached the barrier. -/
def initialized (s : TimerTable N U) : Bool :=
  (List.finRange U).all fun π => s.boot π = .barrier

def timer_gettime (s : TimerTable N U) (id : Nat) : Int :=
  if s.driver = some id then s.clock.counter
  else match s.expires id with
    | some expires => max (expires - s.clock.now) 0
    | none => 0

/-- A caller calls `GetCurrentTime`. -/
def reads (s : TimerTable N U) (c : Caller N U) (purpose : Purpose) : TimerTable N U :=
  { s with
    clock := s.clock.goto c (.called s.clock.now)
    pc := Function.update s.pc c (.reads purpose) }

def goto (s : TimerTable N U) (c : Caller N U) (pc : CallerPc) : TimerTable N U :=
  { s with pc := Function.update s.pc c pc }

/-- The entries due are removed and handled, and the timer is set for the first
one left. -/
def expire (s : TimerTable N U) (π : Fin U) (c : Caller N U) (now : Int) : TimerTable N U :=
  let q := (s.timeQue π).dropWhile fun e => e.1 ≤ now
  { s with timeQue := Function.update s.timeQue π q }.goto c
    (match q with
      | [] => .outside
      | head :: _ => .set (head.1 - now))

/-- `GetCurrentTime` has returned `now`. -/
def resume (s : TimerTable N U) (π : Fin U) (c : Caller N U) (now : Int) :
    Purpose → TimerTable N U
  | .now | .timeout_ready _ => s.goto c .outside
  | .After when => s.goto c (if when > now then .insert when else .outside)
  | .enable_timeout time => s.goto c (if now ≥ time then .outside else .insert time)
  | .disable_timeout time => s.goto c (.remove time)
  | .insertInQueue time => s.goto c (.set (time - now))
  | .handle_timeout_interrupt => s.expire π c now

/-- One access of `GetCurrentTime`, in which the timer is read through the table. -/
def getCurrentTime (s : TimerTable N U) (π : Fin U) (c : Caller N U) (purpose : Purpose) :
    Option (TimerTable N U) :=
  match s.clock.pc c with
  | .loaded began cc =>
      let t := s.timer_gettime (s.timer π .elapsed)
      let pc := .timed began cc t s.clock.now s.clock.unhandled
      some { s.use π .elapsed with clock := s.clock.goto c pc }
  | .timed _ cc t readAt behind =>
      (s.clock.getCurrentTime c).map fun clock =>
        if s.clock.currentTime = cc then
          let value := (Tick - t) + s.clock.currentTime
          { s with
            clock := clock
            samples := ⟨readAt, behind, value⟩ :: s.samples }.resume π c value purpose
        else { s with clock := clock }
  | _ => (s.clock.getCurrentTime c).map fun clock => { s with clock := clock }

/-- The entry goes behind those of equal or earlier time. -/
def insertInQueue (s : TimerTable N U) (π : Fin U) (c : Caller N U) (time : Int)
    (proc : Fin N) : TimerTable N U :=
  let q := s.timeQue π
  let earlier := q.takeWhile fun e => e.1 ≤ time
  let t := { s with
    timeQue := Function.update s.timeQue π
      (earlier ++ (time, proc) :: q.dropWhile fun e => e.1 ≤ time) }
  if earlier.isEmpty then t.reads c (.insertInQueue time) else t.goto c .outside

/-- The next step of the call that a caller is in. -/
def go (pun : Fin N → Fin U) (s : TimerTable N U) (c : Caller N U) :
    Option (TimerTable N U) :=
  let π := c.cpu pun
  match s.pc c with
  | .outside => none
  | .reads purpose => s.getCurrentTime π c purpose
  | .insert time =>
      match c with
      | .process p => some (s.insertInQueue π c time p)
      | .handler _ => none
  | .remove time =>
      some ({ s with
        timeQue := Function.update s.timeQue π
          ((s.timeQue π).eraseP fun e => e.1 = time && Caller.process e.2 = c) }.goto c .outside)
  | .set diff =>
      some ({ s.use π .timeout with
        expires := Function.update s.expires (s.timer π .timeout)
          (set_timer_single s.clock.now diff) }.goto c .outside)

/-- What can happen to the clock by itself: time passes once the timer has been
started, and interrupts are masked and unmasked after the initialisation. -/
def admits (s : TimerTable N U) : ClockAct (Caller N U) → Bool
  | .call _ | .go _ => false
  | .disable | .enable => s.initialized
  | _ => s.ticking

/-- A caller can call `GetCurrentTime` for this purpose. -/
def canCall (s : TimerTable N U) (c : Caller N U) (purpose : Purpose) : Bool :=
  match s.pc c with
  | .outside => s.initialized && purpose.calledBy c
  | _ => false

/-- One step. -/
def step (pun : Fin N → Fin U) (s : TimerTable N U) (act : TableAct N U) :
    Option (TimerTable N U) :=
  if s.plotz then none
  else match act with
    | .init π id => s.boots π id
    | .activate_processor π => s.activate_processor π
    | .clock act =>
        if s.admits act then (s.clock.step act).map fun clock => { s with clock := clock }
        else none
    | .call c purpose => if s.canCall c purpose then some (s.reads c purpose) else none
    | .go c => s.go pun c

end TimerTable

open TimerTable

/-- Every timer used is one that `init_timer` has created; each use of the
elapsed-time timer is one of the driver; and two readings at one instant, with no
tick unhandled, give the same value. -/
structure ClockShared (s : TimerTable N U) : Prop where
  created : ∀ u ∈ s.uses, u.id ∈ s.created
  driver : ∀ u ∈ s.uses, u.timerType = .elapsed → s.driver = some u.id
  same : ∀ r ∈ s.samples, ∀ r' ∈ s.samples, r.readAt = r'.readAt → r.behind = 0 →
    r'.behind = 0 → r.value = r'.value

/-- The condition on a step: the elapsed-time timer is read on processor 0, or its
identifier is the value of an untouched entry. -/
def ReadsDriver (pun : Fin N → Fin U) (s : TimerTable N U) : TableAct N U → Prop
  | .go c => ∀ purpose began cc, s.pc c = .reads purpose →
      s.clock.pc c = .loaded began cc → (c.cpu pun).val = 0 ∨ s.driver = some 0
  | _ => True

/-- The invariant of the runs that meet the condition. -/
structure Booted (s : TimerTable N U) : Prop where
  zero : ∀ π, π.val = 0 → s.boot π = .elapsed ∧ s.driver = none ∨
    s.boot π ≠ .dormant ∧ s.boot π ≠ .elapsed ∧ s.driver = some (s.timer π .elapsed)
  others : ∀ π, π.val ≠ 0 →
    s.timer π .elapsed = 0 ∧ s.boot π ≠ .elapsed ∧ s.boot π ≠ .start
  driver : ∀ id, s.driver = some id → id ∈ s.created
  timeout : ∀ π, s.boot π = .barrier → s.timer π .timeout ∈ s.created
  callers : ∀ c, s.pc c = .outside ∨ s.initialized = true
  clock : ClockInv s.clock
  uses : ∀ u ∈ s.uses, u.id ∈ s.created ∧ (u.timerType = .elapsed → s.driver = some u.id)
  samples : ∀ r ∈ s.samples, r.value + r.behind = r.readAt

namespace Booted

variable {s t : TimerTable N U} {pun : Fin N → Fin U} {π : Fin U} {c : Caller N U}
  {purpose : Purpose}

theorem shared (h : Booted s) : ClockShared s := by
  constructor
  · intro u hu
    exact (h.uses u hu).1
  · intro u hu
    exact (h.uses u hu).2
  · intro r hr r' hr' hat hb hb'
    have hv := h.samples r hr
    have hv' := h.samples r' hr'
    omega

theorem of_init : Booted (TimerTable.init N U) := by
  constructor
  · intro π hπ
    simp [TimerTable.init, hπ]
  · intro π hπ
    simp [TimerTable.init, hπ]
  · intro id hid
    cases hid
  · intro π hπ
    simp only [TimerTable.init] at hπ
    split at hπ <;> cases hπ
  · intro c
    exact Or.inl rfl
  · have hinit := clockInv_init (P := Caller N U)
    exact ⟨hinit.counting, hinit.elapsed, hinit.handled, hinit.calls⟩
  · intro u hu
    cases hu
  · intro r hr
    cases hr

theorem barrier_of_initialized (hin : s.initialized = true) (π : Fin U) :
    s.boot π = .barrier := by
  have hall := List.all_eq_true.mp hin π (List.mem_finRange π)
  simpa using hall

/-! ### What leaves the table alone -/

theorem goto (h : Booted s) (hin : s.initialized = true) (pc : CallerPc) :
    Booted (s.goto c pc) :=
  ⟨h.zero, h.others, h.driver, h.timeout, fun _ => Or.inr hin, h.clock, h.uses, h.samples⟩

theorem queued (h : Booted s) (q : Fin U → List (Int × Fin N)) :
    Booted { s with timeQue := q } :=
  ⟨h.zero, h.others, h.driver, h.timeout, h.callers, h.clock, h.uses, h.samples⟩

theorem requeue (h : Booted s) (hin : s.initialized = true) (q : Fin U → List (Int × Fin N))
    (pc : CallerPc) : Booted ({ s with timeQue := q }.goto c pc) :=
  (h.queued q).goto (s := { s with timeQue := q }) hin pc

theorem timed (h : Booted s) {clock : Clock (Caller N U)} (hclock : ClockInv clock) :
    Booted { s with clock := clock } :=
  ⟨h.zero, h.others, h.driver, h.timeout, h.callers, hclock, h.uses, h.samples⟩

theorem sampled (h : Booted s) {r : Sample} (hr : r.value + r.behind = r.readAt) :
    Booted { s with samples := r :: s.samples } := by
  refine ⟨h.zero, h.others, h.driver, h.timeout, h.callers, h.clock, h.uses, ?_⟩
  intro r' hr'
  rcases List.mem_cons.mp hr' with rfl | hr'
  · exact hr
  · exact h.samples r' hr'

theorem reads (h : Booted s) (hin : s.initialized = true) : Booted (s.reads c purpose) :=
  (h.timed (h.clock.goto (Int.le_refl _))).goto hin (.reads purpose)

/-- An entry is used that names a timer, for the elapsed time the driver. -/
theorem use (h : Booted s) {timerType : TimerType}
    (hcreated : s.timer π timerType ∈ s.created)
    (hdriver : timerType = .elapsed → s.driver = some (s.timer π timerType)) :
    Booted (s.use π timerType) := by
  refine ⟨h.zero, h.others, h.driver, h.timeout, h.callers, h.clock, ?_, h.samples⟩
  intro u hu
  rcases List.mem_cons.mp hu with rfl | hu
  · exact ⟨hcreated, hdriver⟩
  · exact h.uses u hu

/-! ### The initialisation -/

/-- The elapsed-time timer is created: no use of it has been made before. -/
theorem create_elapsed (h : Booted s) {id : Nat} (hboot : s.boot π = .elapsed) :
    Booted { s.init_timer π .elapsed id with
      driver := some id
      boot := Function.update s.boot π .start } := by
  have hπ : π.val = 0 := by
    by_contra hne
    exact (h.others π hne).2.1 hboot
  have hnone : s.driver = none := by
    obtain ⟨-, hnone⟩ | ⟨-, hne, -⟩ := h.zero π hπ
    · exact hnone
    · exact absurd hboot hne
  have hout : ∀ c, s.pc c = .outside := by
    intro c
    obtain hc | hin := h.callers c
    · exact hc
    · rw [barrier_of_initialized hin π] at hboot
      cases hboot
  constructor
  · intro ρ hρ
    obtain rfl : ρ = π := Fin.ext (hρ.trans hπ.symm)
    simp [init_timer]
  · intro ρ hρ
    have hne : ρ ≠ π := by
      intro heq
      exact hρ (heq ▸ hπ)
    simp only [init_timer, Function.update_of_ne hne]
    exact h.others ρ hρ
  · intro i hi
    cases hi
    exact List.mem_cons_self
  · intro ρ hρ
    have hne : ρ ≠ π := by
      intro heq
      subst heq
      simp at hρ
    simp only [init_timer, Function.update_of_ne hne] at hρ ⊢
    exact List.mem_cons_of_mem id (h.timeout ρ hρ)
  · intro c
    exact Or.inl (hout c)
  · exact h.clock
  · intro u hu
    obtain ⟨hcreated, hdriver⟩ := h.uses u hu
    refine ⟨List.mem_cons_of_mem id hcreated, fun he => ?_⟩
    have hsome := hdriver he
    rw [hnone] at hsome
    cases hsome
  · exact h.samples

/-- Before a processor has reached the barrier, nobody reads the time. -/
theorem outside_of_boot (h : Booted s) (hboot : s.boot π ≠ .barrier) (c : Caller N U) :
    s.pc c = .outside := by
  obtain hc | hin := h.callers c
  · exact hc
  · exact absurd (barrier_of_initialized hin π) hboot

/-- A processor goes on in its initialisation. -/
theorem moves (h : Booted s) {b : InitPc} (hboot : s.boot π ≠ .barrier)
    (hzero : π.val = 0 →
      b ≠ .dormant ∧ b ≠ .elapsed ∧ s.driver = some (s.timer π .elapsed))
    (hothers : π.val ≠ 0 → b ≠ .elapsed ∧ b ≠ .start)
    (hbarrier : b = .barrier → s.timer π .timeout ∈ s.created) :
    Booted { s with boot := Function.update s.boot π b } := by
  refine ⟨?_, ?_, h.driver, ?_, fun c => Or.inl (h.outside_of_boot hboot c), h.clock,
    h.uses, h.samples⟩
  · intro ρ hρ
    by_cases hne : ρ = π
    · subst hne
      simp only [Function.update_self]
      exact Or.inr (hzero hρ)
    · simp only [Function.update_of_ne hne]
      exact h.zero ρ hρ
  · intro ρ hρ
    refine ⟨(h.others ρ hρ).1, ?_⟩
    by_cases hne : ρ = π
    · subst hne
      simp only [Function.update_self]
      exact hothers hρ
    · simp only [Function.update_of_ne hne]
      exact (h.others ρ hρ).2
  · intro ρ hρ
    by_cases hne : ρ = π
    · subst hne
      simp only [Function.update_self] at hρ
      exact hbarrier hρ
    · simp only [Function.update_of_ne hne] at hρ
      exact h.timeout ρ hρ

/-- A timeout timer is created. -/
theorem create_timeout (h : Booted s) (id : Nat) : Booted (s.init_timer π .timeout id) := by
  have helapsed : ∀ ρ, (s.init_timer π .timeout id).timer ρ .elapsed = s.timer ρ .elapsed := by
    intro ρ
    by_cases hne : ρ = π
    · subst hne
      simp [init_timer]
    · simp [init_timer, Function.update_of_ne hne]
  refine ⟨?_, ?_, ?_, ?_, h.callers, h.clock, ?_, h.samples⟩
  · intro ρ hρ
    rw [helapsed]
    exact h.zero ρ hρ
  · intro ρ hρ
    rw [helapsed]
    exact h.others ρ hρ
  · intro i hi
    exact List.mem_cons_of_mem id (h.driver i hi)
  · intro ρ hρ
    by_cases hne : ρ = π
    · subst hne
      simp [init_timer]
    · simp only [init_timer, Function.update_of_ne hne]
      exact List.mem_cons_of_mem id (h.timeout ρ hρ)
  · intro u hu
    obtain ⟨hcreated, hdriver⟩ := h.uses u hu
    exact ⟨List.mem_cons_of_mem id hcreated, hdriver⟩

theorem boots (h : Booted s) {id : Nat} (ht : s.boots π id = some t) : Booted t := by
  unfold TimerTable.boots at ht
  split at ht
  next hboot =>
    split at ht
    · cases ht
    · cases ht
      exact h.create_elapsed hboot
  next hboot =>
    cases ht
    have hπ : π.val = 0 := by
      by_contra hne
      exact (h.others π hne).2.2 hboot
    have hdriver : s.driver = some (s.timer π .elapsed) := by
      obtain ⟨he, -⟩ | ⟨-, -, hd⟩ := h.zero π hπ
      · rw [hboot] at he
        cases he
      · exact hd
    have huse := h.use (h.driver _ hdriver) (fun _ => hdriver)
    have hmoves := huse.moves (π := π) (b := .timeout) (by simp [TimerTable.use, hboot])
      (by simp [TimerTable.use, hdriver]) (by simp) (by simp)
    exact ⟨hmoves.zero, hmoves.others, hmoves.driver, hmoves.timeout, hmoves.callers,
      hmoves.clock, hmoves.uses, hmoves.samples⟩
  next hboot =>
    split at ht
    · cases ht
    · cases ht
      have hcreate := h.create_timeout (π := π) id
      apply hcreate.moves
      · simp [init_timer, hboot]
      · intro hπ
        obtain ⟨he, -⟩ | ⟨-, -, hd⟩ := h.zero π hπ
        · rw [hboot] at he
          cases he
        · simp [init_timer, hd]
      · simp
      · simp [init_timer]
  next => cases ht

theorem activate_processor (h : Booted s) (ht : s.activate_processor π = some t) :
    Booted t := by
  obtain ⟨hcan, ht⟩ := Option.ite_none_right_eq_some.mp ht
  cases ht
  have hboot : s.boot π = .dormant := by
    simp only [Bool.and_eq_true, decide_eq_true_eq] at hcan
    exact hcan.1
  apply h.moves
  · simp [hboot]
  · intro hπ
    obtain ⟨he, -⟩ | ⟨hd, -⟩ := h.zero π hπ
    · rw [hboot] at he
      cases he
    · exact absurd hboot hd
  · simp
  · simp

/-! ### The calls -/

/-- The condition: what the table holds for the elapsed-time timer of the caller's
processor is the driver. -/
theorem elapsed_eq_driver (h : Booted s) (hin : s.initialized = true)
    (hreads : π.val = 0 ∨ s.driver = some 0) : s.driver = some (s.timer π .elapsed) := by
  by_cases hπ : π.val = 0
  · obtain ⟨he, -⟩ | ⟨-, -, hd⟩ := h.zero π hπ
    · rw [barrier_of_initialized hin π] at he
      cases he
    · exact hd
  · rw [(h.others π hπ).1]
    exact hreads.resolve_left hπ

theorem expire (h : Booted s) (hin : s.initialized = true) (now : Int) :
    Booted (s.expire π c now) := h.requeue hin _ _

theorem resume (h : Booted s) (hin : s.initialized = true) (now : Int) :
    Booted (s.resume π c now purpose) := by
  cases purpose with
  | handle_timeout_interrupt => exact h.expire hin now
  | _ => exact h.goto hin _

theorem insertInQueue (h : Booted s) (hin : s.initialized = true) (time : Int) (p : Fin N) :
    Booted (s.insertInQueue π c time p) := by
  unfold TimerTable.insertInQueue
  simp only
  split
  · exact (h.queued _).reads hin
  · exact h.requeue hin _ _

theorem getCurrentTime (h : Booted s) (hin : s.initialized = true)
    (hreads : ∀ began cc, s.clock.pc c = .loaded began cc → π.val = 0 ∨ s.driver = some 0)
    (ht : s.getCurrentTime π c purpose = some t) : Booted t := by
  unfold TimerTable.getCurrentTime at ht
  split at ht
  next began cc hpc =>
    cases ht
    have hdriver := h.elapsed_eq_driver hin (hreads began cc hpc)
    have hclock : s.clock.getCurrentTime c =
        some (s.clock.goto c (.timed began cc (s.timer_gettime (s.timer π .elapsed))
          s.clock.now s.clock.unhandled)) := by
      simp [Clock.getCurrentTime, hpc, timer_gettime, hdriver]
    exact (h.use (h.driver _ hdriver) (fun _ => hdriver)).timed
      (h.clock.getCurrentTime hclock)
  next began cc t' readAt behind hpc =>
    obtain ⟨clock, hclock, ht⟩ := Option.map_eq_some_iff.mp ht
    have hinv := h.clock.getCurrentTime hclock
    split at ht
    · rename_i hsame
      cases ht
      obtain ⟨hread, -⟩ := h.clock.reading hpc hsame
      exact ((h.timed hinv).sampled hread).resume hin _
    · cases ht
      exact h.timed hinv
  next =>
    obtain ⟨clock, hclock, rfl⟩ := Option.map_eq_some_iff.mp ht
    exact h.timed (h.clock.getCurrentTime hclock)

theorem set (h : Booted s) (hin : s.initialized = true) (diff : Int) :
    Booted ({ s.use π .timeout with
      expires := Function.update s.expires (s.timer π .timeout)
        (set_timer_single s.clock.now diff) }.goto c .outside) := by
  have huse := h.use (h.timeout π (barrier_of_initialized hin π)) (by simp)
  have hset : Booted { s.use π .timeout with
      expires := Function.update s.expires (s.timer π .timeout)
        (set_timer_single s.clock.now diff) } :=
    ⟨huse.zero, huse.others, huse.driver, huse.timeout, huse.callers, huse.clock,
      huse.uses, huse.samples⟩
  exact hset.goto hin .outside

theorem go (h : Booted s) (hreads : ReadsDriver pun s (.go c)) (ht : s.go pun c = some t) :
    Booted t := by
  have hin : s.pc c ≠ .outside → s.initialized = true := (h.callers c).resolve_left
  unfold TimerTable.go at ht
  simp only at ht
  split at ht
  next => cases ht
  next purpose hpc => exact h.getCurrentTime (hin (by simp [hpc])) (hreads purpose · · hpc) ht
  next time hpc =>
    cases c with
    | process p =>
        cases ht
        exact h.insertInQueue (hin (by simp [hpc])) time p
    | handler ρ => cases ht
  next time hpc =>
    cases ht
    exact h.requeue (hin (by simp [hpc])) _ .outside
  next diff hpc =>
    cases ht
    exact h.set (hin (by simp [hpc])) diff

theorem step (h : Booted s) {act : TableAct N U} (hreads : ReadsDriver pun s act)
    (ht : s.step pun act = some t) : Booted t := by
  obtain ⟨-, ht⟩ := Option.ite_none_left_eq_some.mp ht
  cases act with
  | init π id => exact h.boots ht
  | activate_processor π => exact h.activate_processor ht
  | clock act =>
      obtain ⟨-, ht⟩ := Option.ite_none_right_eq_some.mp ht
      obtain ⟨clock, hclock, rfl⟩ := Option.map_eq_some_iff.mp ht
      exact h.timed (h.clock.step hclock)
  | call c purpose =>
      obtain ⟨hcan, ht⟩ := Option.ite_none_right_eq_some.mp ht
      cases ht
      apply h.reads
      unfold canCall at hcan
      split at hcan
      · exact (Bool.and_eq_true_iff.mp hcan).1
      · cases hcan
  | go c => exact h.go hreads ht

/-- A reading that fails the condition is not one of the driver. -/
theorem not_shared (h : Booted s) {act : TableAct N U} (hreads : ¬ ReadsDriver pun s act)
    (ht : s.step pun act = some t) : ¬ ClockShared t := by
  obtain ⟨-, ht⟩ := Option.ite_none_left_eq_some.mp ht
  cases act with
  | go c =>
      simp only [ReadsDriver, not_forall, not_or] at hreads
      obtain ⟨purpose, began, cc, hpc, hclock, hcpu, hzero⟩ := hreads
      simp only [TimerTable.go, hpc, TimerTable.getCurrentTime, hclock,
        Option.some.injEq] at ht
      subst ht
      intro hshared
      have hdriver := hshared.driver _ List.mem_cons_self rfl
      rw [(h.others _ hcpu).1] at hdriver
      exact hzero hdriver
  | _ => exact absurd trivial hreads

end Booted

/-- **The clock on every processor.**  Through a run every timer used is one that
has been created, every reading of the elapsed-time timer is one of the timer that
drives `currentTime`, and readings at one instant agree, exactly if each reading
was made on processor 0 or the timer's identifier is what the table holds for the
processors that have none. -/
theorem clock_shared_iff (pun : Fin N → Fin U) {acts : List (TableAct N U)}
    {t : TimerTable N U} (hrun : exec (TimerTable.step pun) (TimerTable.init N U) acts = some t) :
    Throughout (TimerTable.step pun) ClockShared (TimerTable.init N U) acts ↔
      Along (TimerTable.step pun) (ReadsDriver pun) (TimerTable.init N U) acts := by
  apply throughout_iff_along (I := Booted) _ _ _ hrun Booted.of_init
  · intro s act t hs hreads ht
    exact hs.step hreads ht
  · intro s hs
    exact hs.shared
  · intro s act t hs hreads ht
    exact hs.not_shared hreads ht

/-- Where identifiers begin at 0, two processes on two processors read the time at
one instant. -/
theorem clock_shared_iff_zero_id :
    let acts : List (TableAct 2 2) :=
      [.init 0 0, .init 0 1, .init 0 1, .activate_processor 1, .init 1 2, .clock (.pass 5),
        .call (.process 0) .now, .call (.process 1) .now, .go (.process 0), .go (.process 1),
        .go (.process 0), .go (.process 1), .go (.process 0), .go (.process 1)]
    (∃ t, exec (TimerTable.step id) (TimerTable.init 2 2) acts = some t ∧
      t.samples.map Sample.value = [5, 5]) ∧
    (Throughout (TimerTable.step id) ClockShared (TimerTable.init 2 2) acts ↔
      Along (TimerTable.step id) (ReadsDriver id) (TimerTable.init 2 2) acts) :=
  ⟨⟨_, rfl, rfl⟩, clock_shared_iff id (t := _) rfl⟩

/-- Where they begin at 1, a process on processor 1 reads a timer that has never
been created. -/
theorem clock_not_shared :
    ¬ ∀ (acts : List (TableAct 2 2)) (t : TimerTable 2 2),
      exec (TimerTable.step id) (TimerTable.init 2 2) acts = some t →
      Throughout (TimerTable.step id) ClockShared (TimerTable.init 2 2) acts := by
  intro hall
  have hshared := (hall [.init 0 1, .init 0 0, .init 0 2, .activate_processor 1, .init 1 3,
    .call (.process 1) .now, .go (.process 1), .go (.process 1)] _ rfl).last rfl
  have hcreated := hshared.created ⟨.elapsed, 0⟩ List.mem_cons_self
  revert hcreated
  decide

end Cxp
