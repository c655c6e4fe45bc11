import Cxp.Rendezvous
import Cxp.RunInduction

/-!
# The readiness tests of a channel (`comm.c`)

A reader asks whether a writer is registered on a channel in four ways: with
`chan_pending`, with `try_in`, in an alternation (`enable_channel`), and by
calling `in`.  Here one reader and one writer use a channel for ever, with any
buffers, a null pointer of length zero among them, and the reader also calls
selects in which the channel may be any number of the guards.

* Whenever the reader is in no call, a writer or nobody is registered, and the
  channel holds the buffer which that writer passed (`Sound`).
* The four tests agree exactly if that buffer is not null (`tests_agree_iff`):
  `chan_pending` takes a null pointer for a reader that listens.
-/

namespace Cxp

open Run

/-- A buffer as the calls accept it; address 0 is the null pointer. -/
structure Buffer where
  addr : Nat
  len : Nat
  accepted : addr = 0 → len = 0

/-- What a guard of the reader's alternation is for. -/
inductive GuardFor
  | channel
  | other
  deriving DecidableEq

/-- Where a party stands.  The guards that a select has enabled are kept in
`done`, the last one first. -/
inductive UserPc
  | idle
  /-- about to enter the critical section of `in` or `out` -/
  | call (b : Buffer)
  /-- has transferred the data, about to exchange the `sched_state` of `q` -/
  | wake (q : End)
  /-- found `q` waiting, about to schedule it -/
  | schedule (q : End)
  /-- in `freeProcessMaybe(q)`, about to try Enabling to Ready -/
  | free (q : End)
  /-- found Waiting, about to try Waiting to Ready -/
  | freeWaiting (q : End)
  /-- about to schedule `q` -/
  | freeSchedule (q : End)
  /-- about to call `relinquish` -/
  | relinquish
  /-- has given up the processor in `relinquish` -/
  | wait
  | enable (done todo : List GuardFor)
  /-- about to try Enabling to Waiting -/
  | shouldWait (done : List GuardFor)
  /-- has given up the processor in `relinquish_unconditional` -/
  | altWait (done : List GuardFor)
  | disable (done : List GuardFor)
  | finish

/-- A channel (`ptr` is the union of `src` and `dest`) with its reader and its
writer.  `alt_state` is the reader's, and `waker`: a timeout or the writer of
another channel has found it Waiting and is about to schedule it.  `src` is what
the writer has passed last. -/
structure Pair where
  waiting : Option End
  ptr : Nat
  pc : End → UserPc
  sched_state : End → SchedState
  alt_state : AltState
  runnable : End → Bool
  waker : Bool
  src : Nat

/-- What happens next. -/
inductive PairAct
  | in (b : Buffer)
  | try_in (b : Buffer)
  | select (guards : List GuardFor)
  | out (b : Buffer)
  /-- the next step of the call that a party is in; a guard for something else
  is found ready or not -/
  | run (e : End) (ready : Bool)
  /-- somebody else frees the reader -/
  | free
  /-- and schedules it -/
  | schedule

namespace UserPc

/-- The party has registered in `in` or `out`, and goes on to `relinquish`. -/
def inWait : UserPc → Bool
  | .free _ | .freeWaiting _ | .freeSchedule _ | .relinquish => true
  | _ => false

/-- The party neither waits nor is about to. -/
def awake : UserPc → Bool
  | .free _ | .freeWaiting _ | .freeSchedule _ | .relinquish | .wait | .altWait _ => false
  | _ => true

/-- The guards that a select has enabled and not disabled yet. -/
def enabled : UserPc → List GuardFor
  | .enable done _ | .shouldWait done | .altWait done | .disable done => done
  | _ => []

end UserPc

namespace Pair

/-- Nothing called yet. -/
def init : Pair where
  waiting := none
  ptr := 0
  pc := fun _ => .idle
  sched_state := fun _ => .ready
  alt_state := .none
  runnable := fun _ => true
  waker := false
  src := 0

def goto (s : Pair) (e : End) (pc : UserPc) : Pair :=
  { s with pc := Function.update s.pc e pc }

/-- Register with a buffer, and `PREPARE_TO_WAIT`. -/
def await (s : Pair) (e : End) (b : Buffer) : Pair :=
  { s with
    waiting := some e
    ptr := b.addr
    sched_state := Function.update s.sched_state e .preparingToWait }

/-- Nobody is registered any more. -/
def clear (s : Pair) : Pair := { s with waiting := none, ptr := 0 }

/-- `memcpy` is defined between these addresses. -/
def copies (dest src len : Nat) : Bool := len = 0 || (dest ≠ 0 && src ≠ 0)

/-- The critical section of `in`; `none` is a copy from or to a null pointer. -/
def «in» (s : Pair) (b : Buffer) : Option Pair :=
  match s.waiting with
  | some wasWaiting =>
      if copies b.addr s.ptr b.len then some (s.clear.goto .input (.wake wasWaiting)) else none
  | none => some ((s.await .input b).goto .input .relinquish)

/-- `try_in`, and what it returns. -/
def try_in (s : Pair) (b : Buffer) : Option (Pair × Bool) :=
  match s.waiting with
  | some _ => if copies b.addr s.ptr b.len then some (s.clear, true) else none
  | none => some (s, false)

def chan_pending (s : Pair) : Bool := s.waiting ≠ none && s.ptr ≠ 0

/-- The critical section of `out`. -/
def out (s : Pair) (b : Buffer) : Option Pair :=
  match s.waiting with
  | some wasWaiting =>
      if s.ptr ≠ 0 then
        if copies s.ptr b.addr b.len then some (s.clear.goto .output (.wake wasWaiting))
        else none
      else some ((s.await .output b).goto .output (.free wasWaiting))
  | none => some ((s.await .output b).goto .output .relinquish)

/-- `enable_channel` by the reader, and whether the channel is ready. -/
def enable_channel (s : Pair) : Pair × Bool :=
  match s.waiting with
  | some q => (s, q ≠ .input)
  | none => ({ s with waiting := some .input, ptr := 0 }, false)

def disable_channel (s : Pair) : Pair × Bool :=
  if s.waiting ≠ none ∧ s.waiting ≠ some .input then (s, true)
  else ({ s with waiting := none }, false)

/-- The next round of the enabling loop, or the enabling of the earliest timeout
behind it. -/
def enable (s : Pair) (e : End) (done : List GuardFor) (ready : Bool) :
    List GuardFor → Pair
  | .channel :: todo =>
      let r := s.enable_channel
      r.1.goto e (if r.2 then .disable (.channel :: done) else .enable (.channel :: done) todo)
  | .other :: todo =>
      s.goto e (if ready then .disable (.other :: done) else .enable (.other :: done) todo)
  | [] => s.goto e (if ready then .disable done else .shouldWait done)

/-- The next round of the disabling loop. -/
def disable (s : Pair) (e : End) : List GuardFor → Pair
  | .channel :: done => s.disable_channel.1.goto e (.disable done)
  | .other :: done => s.goto e (.disable done)
  | [] => s.goto e .finish

/-- The next step of the call that a party is in. -/
def run (s : Pair) (e : End) (ready : Bool) : Option Pair :=
  match s.pc e with
  | .idle => none
  | .call b =>
      match e with
      | .input => s.in b
      | .output => s.out b
  | .wake q =>
      some ({ s with sched_state := Function.update s.sched_state q .ready }.goto e
        (if s.sched_state q = SchedState.waiting then .schedule q else .idle))
  | .schedule q => some ({ s with runnable := Function.update s.runnable q true }.goto e .idle)
  | .free q =>
      some (match s.alt_state with
        | .enabling => { s with alt_state := .ready }.goto e .relinquish
        | .waiting => s.goto e (.freeWaiting q)
        | _ => s.goto e .relinquish)
  | .freeWaiting q =>
      some (if s.alt_state = .waiting then { s with alt_state := .ready }.goto e (.freeSchedule q)
        else s.goto e .relinquish)
  | .freeSchedule q =>
      some ({ s with runnable := Function.update s.runnable q true }.goto e .relinquish)
  | .relinquish =>
      some (if s.sched_state e = .preparingToWait then
          { s with
            sched_state := Function.update s.sched_state e .waiting
            runnable := Function.update s.runnable e false }.goto e .wait
        else s.goto e .idle)
  | .wait => if s.runnable e then some (s.goto e .idle) else none
  | .enable done todo => some (s.enable e done ready todo)
  | .shouldWait done =>
      some (if s.alt_state = .enabling then
          { s with
            alt_state := .waiting
            runnable := Function.update s.runnable e false }.goto e (.altWait done)
        else s.goto e (.disable done))
  | .altWait done => if s.runnable e then some (s.goto e (.disable done)) else none
  | .disable done => some (s.disable e done)
  | .finish => some ({ s with alt_state := .none }.goto e .idle)

def isIdle (s : Pair) (e : End) : Bool :=
  match s.pc e with
  | .idle => true
  | _ => false

/-- One step. -/
def step (s : Pair) : PairAct → Option Pair
  | .in b => if s.isIdle .input then some (s.goto .input (.call b)) else none
  | .try_in b => if s.isIdle .input then (s.try_in b).map Prod.fst else none
  | .select guards =>
      if s.isIdle .input then
        some ({ s with alt_state := .enabling }.goto .input (.enable [] guards))
      else none
  | .out b =>
      if s.isIdle .output then some ({ s with src := b.addr }.goto .output (.call b)) else none
  | .run e ready => s.run e ready
  | .free =>
      match s.alt_state with
      | .enabling => some { s with alt_state := .ready }
      | .waiting => some { s with alt_state := .ready, waker := true }
      | _ => none
  | .schedule =>
      if s.waker then
        some { s with runnable := Function.update s.runnable .input true, waker := false }
      else none

/-- A call of `in` by the reader during which nothing else happens; `none` when
it has to wait. -/
def inAlone (s : Pair) (b : Buffer) : Option Pair :=
  (exec step s [.in b, .run .input false, .run .input false]).bind fun t =>
    if t.isIdle .input then some t else t.run .input false

/-- The four tests agree: each succeeds exactly when a writer is registered. -/
structure Agree (s : Pair) : Prop where
  chan_pending : s.chan_pending = true ↔ s.waiting = some .output
  try_in : ∀ b, (∃ t, s.try_in b = some (t, true)) ↔ s.waiting = some .output
  enable_channel : s.enable_channel.2 = true ↔ s.waiting = some .output
  in_completes : ∀ b, (∃ t, s.inAlone b = some t) ↔ s.waiting = some .output

/-- The party is in `in` or `out`, has registered, and has not been woken. -/
def Waits (s : Pair) (e : End) : Prop :=
  (s.pc e).inWait = true ∧ s.sched_state e = .preparingToWait ∨
    s.pc e = .wait ∧ s.sched_state e = .waiting ∧ s.runnable e = false

/-- The party has been found waiting, and has not been scheduled. -/
def Sleeps (s : Pair) (e : End) : Prop :=
  s.pc e = .wait ∧ s.sched_state e = .ready ∧ s.runnable e = false

/-- The reader is in a select that has enabled the channel. -/
def Listens (s : Pair) : Prop := .channel ∈ (s.pc .input).enabled

/-- The reader has given up the processor in a select, and has not been
scheduled. -/
def Rests (s : Pair) : Prop :=
  (∃ done, s.pc .input = .altWait done) ∧ s.runnable .input = false

/-- What holds of the party that is registered. -/
def Registered (s : Pair) (e : End) : Prop :=
  s.Waits e ∧ (e = .output → s.ptr = s.src) ∨ e = .input ∧ s.Listens ∧ s.ptr = 0

/-- What holds of a party where it stands. -/
def Place (s : Pair) (e : End) : UserPc → Prop
  | .call b => e = .output → s.src = b.addr
  | .wake q => q = e.peer ∧ s.waiting = none ∧ s.Waits q
  | .schedule q => q = e.peer ∧ s.waiting = none ∧ s.Sleeps q
  | .free q | .freeWaiting q => e = .output ∧ q = .input
  | .freeSchedule q =>
      (e = .output ∧ q = .input) ∧ s.Rests ∧ s.alt_state = .ready ∧ s.waker = false
  | .enable _ _ | .shouldWait _ | .altWait _ | .disable _ | .finish => e = .input
  | .idle | .relinquish | .wait => True

/-- The invariant. -/
structure Sound (s : Pair) : Prop where
  registered : ∀ e, s.waiting = some e → s.Registered e
  place : ∀ e, s.Place e (s.pc e)
  woken : s.waker = true → s.Rests ∧ s.alt_state = .ready
  resting : s.alt_state = .waiting → s.Rests ∧ s.waker = false

variable {s t : Pair} {e q : End} {b : Buffer} {ready : Bool} {done todo : List GuardFor}
  {pc : UserPc}

theorem Sound.init : Pair.init.Sound := by
  constructor
  · intro e he
    cases he
  · intro e
    trivial
  · intro hw
    cases hw
  · intro hw
    cases hw

/-! ### A step of one party -/

/-- What a step of the other party leaves of `p`. -/
structure Spares (s t : Pair) (p : End) : Prop where
  pc : t.pc p = s.pc p
  sched_state : t.sched_state p = s.sched_state p
  runnable : t.runnable p = s.runnable p
  waiting : t.waiting = some p → s.waiting = some p ∧ t.ptr = s.ptr
  src : p = .output → t.src = s.src
  waker : t.waker = s.waker
  alt_waiting : t.alt_state = .waiting → s.alt_state = .waiting
  alt_ready : p = .input → s.alt_state = .ready → t.alt_state = .ready

theorem eq_or_peer (q e : End) : q = e ∨ q = e.peer := by
  cases q <;> cases e <;> simp

theorem peer_peer (e : End) : e.peer.peer = e := by
  cases e <;> rfl

theorem peer_ne (e : End) : e.peer ≠ e := by
  cases e <;> decide

theorem Spares.refl (s : Pair) (p : End) : Spares s s p := by
  constructor <;> simp

theorem spares_clear (s : Pair) (p : End) : Spares s s.clear p := by
  constructor <;> simp [clear]

theorem spares_await (s : Pair) (e : End) (b : Buffer) : Spares s (s.await e b) e.peer := by
  constructor <;> simp [await, peer_ne, Ne.symm (peer_ne e)]

theorem Spares.goto (h : Spares s t e.peer) (pc : UserPc) : Spares s (t.goto e pc) e.peer where
  pc := (Function.update_of_ne (peer_ne e) _ _).trans h.pc
  sched_state := h.sched_state
  runnable := h.runnable
  waiting := h.waiting
  src := h.src
  waker := h.waker
  alt_waiting := h.alt_waiting
  alt_ready := h.alt_ready

theorem Spares.waits {p : End} (h : Spares s t p) : t.Waits p ↔ s.Waits p := by
  unfold Waits
  rw [h.pc, h.sched_state, h.runnable]

theorem Spares.rests (h : Spares s t .input) : t.Rests ↔ s.Rests := by
  unfold Rests
  rw [h.pc, h.runnable]

theorem Spares.registered {p : End} (h : Spares s t p) (hs : s.Registered p)
    (hw : t.waiting = some p) : t.Registered p := by
  have hptr := (h.waiting hw).2
  obtain ⟨hwaits, hsrc⟩ | ⟨rfl, hlistens, hnull⟩ := hs
  · refine Or.inl ⟨h.waits.mpr hwaits, ?_⟩
    intro hp
    rw [hptr, h.src hp, hsrc hp]
  · refine Or.inr ⟨rfl, ?_, hptr.trans hnull⟩
    unfold Listens
    rw [h.pc]
    exact hlistens

theorem goto_pc (s : Pair) (e : End) (pc : UserPc) : (s.goto e pc).pc e = pc :=
  Function.update_self _ _ _

theorem place_goto (h : (s.goto e pc).Place e pc) :
    (s.goto e pc).Place e ((s.goto e pc).pc e) := by
  rw [goto_pc]
  exact h

/-- **A step of one party** keeps the invariant if it spares the other one, if the
party neither sleeps nor rests, if it goes on to wait if it waits, and if what
holds of it holds of it after the step. -/
theorem Sound.next (h : s.Sound) (hspares : Spares s t e.peer)
    (hwaits : s.Waits e → t.Waits e ∧ t.waiting = s.waiting) (hsleeps : ¬ s.Sleeps e)
    (hrests : e = .input → ¬ s.Rests) (hown : t.waiting = some e → t.Registered e)
    (hplace : t.Place e (t.pc e)) : t.Sound := by
  have hreader : s.Rests → e.peer = .input := by
    intro hrest
    cases e with
    | input => exact absurd hrest (hrests rfl)
    | output => rfl
  constructor
  · intro q hq
    obtain rfl | rfl := eq_or_peer q e
    · exact hown hq
    · exact hspares.registered (h.registered _ (hspares.waiting hq).1) hq
  · intro q
    obtain rfl | rfl := eq_or_peer q e
    · exact hplace
    · have hpeer := h.place e.peer
      rw [hspares.pc]
      cases hpc : s.pc e.peer with
      | call b =>
          rw [hpc] at hpeer
          intro hout
          exact (hspares.src hout).trans (hpeer hout)
      | wake q =>
          rw [hpc] at hpeer
          obtain ⟨rfl, hnone, hw⟩ := hpeer
          rw [peer_peer] at hw
          obtain ⟨hw', hsame⟩ := hwaits hw
          refine ⟨rfl, hsame.trans hnone, ?_⟩
          rwa [peer_peer]
      | schedule q =>
          rw [hpc] at hpeer
          obtain ⟨rfl, -, hsleep⟩ := hpeer
          rw [peer_peer] at hsleep
          exact absurd hsleep hsleeps
      | freeSchedule q =>
          rw [hpc] at hpeer
          obtain ⟨⟨hout, -⟩, hrest, -⟩ := hpeer
          rw [hreader hrest] at hout
          cases hout
      | _ =>
          rw [hpc] at hpeer
          exact hpeer
  · intro hwaker
    obtain ⟨hrest, hready⟩ := h.woken (hspares.waker ▸ hwaker)
    have hin := hreader hrest
    refine ⟨?_, hspares.alt_ready hin hready⟩
    rw [hin] at hspares
    exact hspares.rests.mpr hrest
  · intro halt
    obtain ⟨hrest, hwaker⟩ := h.resting (hspares.alt_waiting halt)
    have hin := hreader hrest
    refine ⟨?_, hspares.waker.trans hwaker⟩
    rw [hin] at hspares
    exact hspares.rests.mpr hrest

theorem not_waits_of_awake (hpc : (s.pc e).awake = true) : ¬ s.Waits e := by
  intro hw
  unfold Waits at hw
  cases hpc' : s.pc e <;> simp_all [UserPc.awake, UserPc.inWait]

theorem not_waits_of_altWait (hpc : s.pc e = .altWait done) : ¬ s.Waits e := by
  intro hw
  unfold Waits at hw
  rw [hpc] at hw
  obtain ⟨hin, -⟩ | ⟨hwait, -⟩ := hw
  · cases hin
  · cases hwait

theorem not_sleeps_of_ne (hpc : s.pc e ≠ .wait) : ¬ s.Sleeps e := by
  intro hsleep
  exact hpc hsleep.1

theorem not_sleeps_of_runnable (hr : s.runnable e = true) : ¬ s.Sleeps e := by
  intro hsleep
  have hrun := hsleep.2.2
  rw [hr] at hrun
  cases hrun

theorem not_rests_of_ne (hpc : ∀ done, s.pc .input ≠ .altWait done) : ¬ s.Rests := by
  intro hrest
  obtain ⟨⟨done, hdone⟩, -⟩ := hrest
  exact hpc done hdone

theorem not_rests_of_awake (hpc : (s.pc .input).awake = true) : ¬ s.Rests := by
  apply not_rests_of_ne
  intro done hdone
  rw [hdone] at hpc
  cases hpc

/-- Neither party rests: one is awake, and the other is not in a select. -/
theorem not_rests_of_peer (hawake : (s.pc e).awake = true)
    (hpeer : ∀ done, s.pc e.peer ≠ .altWait done) : ¬ s.Rests := by
  apply not_rests_of_ne
  intro done hdone
  obtain heq | heq := eq_or_peer .input e
  · rw [← heq, hdone] at hawake
    cases hawake
  · rw [heq] at hdone
    exact hpeer done hdone

/-- Who is registered and does not wait is the reader, which listens. -/
theorem Sound.listens (h : s.Sound) (hw : s.waiting = some e) (hwaits : ¬ s.Waits e) :
    e = .input ∧ s.Listens ∧ s.ptr = 0 := by
  obtain ⟨hw', -⟩ | hlistens := h.registered e hw
  · exact absurd hw' hwaits
  · exact hlistens

/-- A step of a party that is awake. -/
theorem Sound.acts (h : s.Sound) (hawake : (s.pc e).awake = true)
    (hspares : Spares s t e.peer) (hown : t.waiting = some e → t.Registered e)
    (hplace : t.Place e (t.pc e)) : t.Sound := by
  apply h.next hspares
  · intro hw
    exact absurd hw (not_waits_of_awake hawake)
  · apply not_sleeps_of_ne
    intro hwait
    rw [hwait] at hawake
    cases hawake
  · intro hin
    subst hin
    exact not_rests_of_awake hawake
  · exact hown
  · exact hplace

/-- A party that has registered, and goes on to `relinquish`. -/
theorem Sound.continues (h : s.Sound) (pc : UserPc) (hin : (s.pc e).inWait = true)
    (hpc : pc.inWait = true) (hplace : (s.goto e pc).Place e pc) : (s.goto e pc).Sound := by
  have hstays : s.Waits e → (s.goto e pc).Waits e := by
    intro hw
    obtain ⟨-, hstate⟩ | ⟨hwait, -⟩ := hw
    · exact Or.inl ⟨by rwa [goto_pc], hstate⟩
    · rw [hwait] at hin
      cases hin
  apply h.next ((Spares.refl s _).goto pc)
  · intro hw
    exact ⟨hstays hw, rfl⟩
  · apply not_sleeps_of_ne
    intro hwait
    rw [hwait] at hin
    cases hin
  · intro he
    apply not_rests_of_ne
    intro done hdone
    rw [he, hdone] at hin
    cases hin
  · intro hw
    obtain ⟨hwaits, hsrc⟩ | ⟨rfl, hlistens, -⟩ := h.registered e hw
    · exact Or.inl ⟨hstays hwaits, hsrc⟩
    · unfold Listens at hlistens
      cases hpc' : s.pc .input <;> simp_all [UserPc.inWait, UserPc.enabled]
  · exact place_goto hplace

/-- Whoever a party in no call, or at its beginning, finds registered is the
other one. -/
theorem Sound.finds_peer (h : s.Sound) (hawake : (s.pc e).awake = true)
    (henabled : (s.pc e).enabled = []) (hq : s.waiting = some q) : q = e.peer := by
  obtain rfl | heq := eq_or_peer q e
  · obtain ⟨rfl, hlistens, -⟩ := h.listens hq (not_waits_of_awake hawake)
    unfold Listens at hlistens
    rw [henabled] at hlistens
    cases hlistens
  · exact heq

/-! ### One lemma for each operation -/

theorem Sound.call_in (h : s.Sound) (hpc : s.pc .input = .idle) :
    (s.goto .input (.call b)).Sound := by
  have hawake : (s.pc .input).awake = true := by rw [hpc]; rfl
  apply h.acts hawake ((Spares.refl s _).goto _)
  · intro hw
    cases h.finds_peer hawake (by rw [hpc]; rfl) hw
  · apply place_goto
    intro hout
    cases hout

theorem Sound.call_out (h : s.Sound) (hpc : s.pc .output = .idle) :
    ({ s with src := b.addr }.goto .output (.call b)).Sound := by
  have hawake : (s.pc .output).awake = true := by rw [hpc]; rfl
  apply h.acts hawake
  · apply Spares.goto
    constructor <;> simp
  · intro hw
    cases h.finds_peer hawake (by rw [hpc]; rfl) hw
  · apply place_goto
    intro _
    rfl

theorem Sound.try_in (h : s.Sound) (hpc : s.pc .input = .idle) {r : Bool}
    (ht : s.try_in b = some (t, r)) : t.Sound := by
  unfold Pair.try_in at ht
  split at ht
  · split at ht
    · cases ht
      apply h.acts (e := .input) (by rw [hpc]; rfl) (spares_clear s _)
      · intro hw
        cases hw
      · change s.clear.Place .input (s.pc .input)
        rw [hpc]
        trivial
    · cases ht
  · cases ht
    exact h

/-- The party registers. -/
theorem Sound.awaits (h : s.Sound) (hpc : s.pc e = .call b) (hin : pc.inWait = true)
    (hplace : ((s.await e b).goto e pc).Place e pc) : ((s.await e b).goto e pc).Sound := by
  apply h.acts (by rw [hpc]; rfl) ((spares_await s e b).goto pc)
  · intro _
    left
    constructor
    · left
      rw [goto_pc]
      exact ⟨hin, Function.update_self _ _ _⟩
    · intro hout
      have hsrc := h.place e
      rw [hpc] at hsrc
      exact (hsrc hout).symm
  · exact place_goto hplace

/-- The party takes the registration of its peer, which waits. -/
theorem Sound.takes (h : s.Sound) (hpc : s.pc e = .call b) (hwaits : s.Waits e.peer) :
    (s.clear.goto e (.wake e.peer)).Sound := by
  have hspares := (spares_clear s e.peer).goto (.wake e.peer)
  apply h.acts (by rw [hpc]; rfl) hspares
  · intro hw
    cases hw
  · apply place_goto
    exact ⟨rfl, rfl, hspares.waits.mpr hwaits⟩

theorem Sound.in (h : s.Sound) (hpc : s.pc .input = .call b) (ht : s.in b = some t) :
    t.Sound := by
  unfold Pair.in at ht
  split at ht
  next wasWaiting hw =>
    obtain rfl := h.finds_peer (e := .input) (by rw [hpc]; rfl) (by rw [hpc]; rfl) hw
    split at ht
    · cases ht
      obtain ⟨hwaits, -⟩ | ⟨hin, -⟩ := h.registered _ hw
      · exact h.takes hpc hwaits
      · cases hin
    · cases ht
  next =>
    cases ht
    exact h.awaits hpc rfl trivial

theorem Sound.out (h : s.Sound) (hpc : s.pc .output = .call b) (ht : s.out b = some t) :
    t.Sound := by
  unfold Pair.out at ht
  split at ht
  next wasWaiting hw =>
    obtain rfl := h.finds_peer (e := .output) (by rw [hpc]; rfl) (by rw [hpc]; rfl) hw
    split at ht
    next hptr =>
      split at ht
      · cases ht
        obtain ⟨hwaits, -⟩ | ⟨-, -, hnull⟩ := h.registered _ hw
        · exact h.takes hpc hwaits
        · exact absurd hnull hptr
      · cases ht
    next =>
      cases ht
      exact h.awaits hpc rfl ⟨rfl, rfl⟩
  next =>
    cases ht
    exact h.awaits hpc rfl trivial

/-- A select begins. -/
theorem Sound.select (h : s.Sound) (hpc : s.pc .input = .idle) (guards : List GuardFor) :
    ({ s with alt_state := .enabling }.goto .input (.enable [] guards)).Sound := by
  have hawake : (s.pc .input).awake = true := by rw [hpc]; rfl
  apply h.acts hawake
  · apply Spares.goto
    constructor <;> simp
  · intro hw
    cases h.finds_peer hawake (by rw [hpc]; rfl) hw
  · exact place_goto rfl

/-- The next step of a select that does not change who is registered. -/
theorem Sound.selects (h : s.Sound) (hawake : (s.pc .input).awake = true)
    (hpc : .channel ∈ (s.pc .input).enabled → .channel ∈ pc.enabled)
    (hplace : (s.goto .input pc).Place .input pc) : (s.goto .input pc).Sound := by
  apply h.acts hawake ((Spares.refl s _).goto pc)
  · intro hw
    obtain ⟨-, hlistens, hnull⟩ := h.listens hw (not_waits_of_awake hawake)
    refine Or.inr ⟨rfl, ?_, hnull⟩
    unfold Listens
    rw [goto_pc]
    exact hpc hlistens
  · exact place_goto hplace

theorem Sound.enable (h : s.Sound) (hpc : s.pc .input = .enable done todo) :
    (s.enable .input done ready todo).Sound := by
  have hawake : (s.pc .input).awake = true := by rw [hpc]; rfl
  have hdone : (s.pc .input).enabled = done := by rw [hpc]; rfl
  cases todo with
  | nil =>
      cases ready with
      | true => exact h.selects hawake (fun hc => hdone ▸ hc) rfl
      | false => exact h.selects hawake (fun hc => hdone ▸ hc) rfl
  | cons g todo =>
      cases g with
      | other =>
          have hmem : GuardFor.channel ∈ (s.pc .input).enabled →
              GuardFor.channel ∈ GuardFor.other :: done := by
            intro hc
            rw [hdone] at hc
            exact List.mem_cons_of_mem _ hc
          cases ready with
          | true => exact h.selects hawake hmem rfl
          | false => exact h.selects hawake hmem rfl
      | channel =>
          unfold Pair.enable enable_channel
          cases hw : s.waiting with
          | none =>
              apply h.acts hawake
              · apply Spares.goto
                constructor <;> simp
              · intro _
                refine Or.inr ⟨rfl, ?_, rfl⟩
                unfold Listens
                rw [goto_pc]
                exact List.mem_cons_self
              · exact place_goto rfl
          | some q =>
              cases q with
              | input => exact h.selects hawake (fun _ => List.mem_cons_self) rfl
              | output => exact h.selects hawake (fun _ => List.mem_cons_self) rfl

/-- The reader is no longer registered. -/
theorem Sound.unregisters (h : s.Sound) (hpc : s.pc .input = .disable done) :
    (s.disable_channel.1.goto .input (.disable todo)).Sound := by
  have hawake : (s.pc .input).awake = true := by rw [hpc]; rfl
  unfold disable_channel
  split
  next hother =>
    apply h.acts hawake ((Spares.refl s _).goto _)
    · intro hw
      exact absurd hw hother.2
    · exact place_goto rfl
  next =>
    apply h.acts hawake
    · apply Spares.goto
      constructor <;> simp
    · intro hw
      cases hw
    · exact place_goto rfl

theorem Sound.disable (h : s.Sound) (hpc : s.pc .input = .disable done) :
    (s.disable .input done).Sound := by
  have hawake : (s.pc .input).awake = true := by rw [hpc]; rfl
  cases done with
  | nil =>
      apply h.selects hawake
      · rw [hpc]
        exact fun hc => hc
      · rfl
  | cons g done =>
      cases g with
      | channel => exact h.unregisters hpc
      | other =>
          apply h.selects hawake
          · rw [hpc]
            intro hc
            exact (List.mem_cons.mp hc).resolve_left (by decide)
          · rfl

/-- The reader, which nobody has freed, rests. -/
theorem Sound.rests (h : s.Sound) (halt : s.alt_state = .enabling) (hrest : s.Rests) :
    ({ s with alt_state := .waiting } : Pair).Sound := by
  constructor
  · exact h.registered
  · intro e
    have hplace := h.place e
    change Place { s with alt_state := .waiting } e (s.pc e)
    cases hpc : s.pc e with
    | freeSchedule q =>
        rw [hpc] at hplace
        obtain ⟨-, -, hready, -⟩ := hplace
        rw [halt] at hready
        cases hready
    | _ =>
        rw [hpc] at hplace
        exact hplace
  · intro hwaker
    have hready := (h.woken hwaker).2
    rw [halt] at hready
    cases hready
  · intro _
    refine ⟨hrest, ?_⟩
    change s.waker = false
    by_contra hwaker
    have hready := (h.woken (by simpa using hwaker)).2
    rw [halt] at hready
    cases hready

theorem Sound.shouldWait (h : s.Sound) (hpc : s.pc .input = .shouldWait done)
    (ht : s.run .input ready = some t) : t.Sound := by
  have hawake : (s.pc .input).awake = true := by rw [hpc]; rfl
  have hdone : (s.pc .input).enabled = done := by rw [hpc]; rfl
  simp only [Pair.run, hpc, Option.some.injEq] at ht
  subst ht
  split
  next halt =>
    have hgiven : ({ s with runnable := Function.update s.runnable .input false }.goto .input
        (.altWait done)).Sound := by
      apply h.acts hawake
      · apply Spares.goto
        constructor <;> simp
      · intro hw
        obtain ⟨-, hlistens, hnull⟩ := h.listens hw (not_waits_of_awake hawake)
        refine Or.inr ⟨rfl, ?_, hnull⟩
        unfold Listens at hlistens ⊢
        rw [goto_pc]
        exact hdone ▸ hlistens
      · exact place_goto rfl
    apply hgiven.rests halt
    refine ⟨⟨done, goto_pc _ _ _⟩, ?_⟩
    exact Function.update_self End.input false s.runnable
  next => exact h.selects hawake (fun hc => hdone ▸ hc) rfl

theorem Sound.resume (h : s.Sound) (hpc : s.pc .input = .altWait done)
    (hr : s.runnable .input = true) : (s.goto .input (.disable done)).Sound := by
  have hwaits : ¬ s.Waits .input := not_waits_of_altWait hpc
  apply h.next ((Spares.refl s _).goto _)
  · intro hw
    exact absurd hw hwaits
  · exact not_sleeps_of_runnable hr
  · intro _ hrest
    have hrun := hrest.2
    rw [hr] at hrun
    cases hrun
  · intro hw
    obtain ⟨-, hlistens, hnull⟩ := h.listens hw hwaits
    refine Or.inr ⟨rfl, ?_, hnull⟩
    unfold Listens at hlistens ⊢
    rw [hpc] at hlistens
    rw [goto_pc]
    exact hlistens
  · exact place_goto rfl

theorem Sound.finish (h : s.Sound) (hpc : s.pc .input = .finish) :
    ({ s with alt_state := .none }.goto .input .idle).Sound := by
  have hawake : (s.pc .input).awake = true := by rw [hpc]; rfl
  apply h.acts hawake
  · apply Spares.goto
    constructor <;> simp
  · intro hw
    cases h.finds_peer hawake (by rw [hpc]; rfl) hw
  · exact place_goto trivial

/-- A party that has registered gives up the processor, or goes on if it has been
woken. -/
theorem Sound.relinquish (h : s.Sound) (hpc : s.pc e = .relinquish) :
    (if s.sched_state e = .preparingToWait then
      { s with
        sched_state := Function.update s.sched_state e .waiting
        runnable := Function.update s.runnable e false }.goto e .wait
    else s.goto e .idle).Sound := by
  have hsleeps : ¬ s.Sleeps e := not_sleeps_of_ne (by simp [hpc])
  have hrests : e = .input → ¬ s.Rests := by
    intro he
    subst he
    exact not_rests_of_ne (by simp [hpc])
  have hlistens : e = .input → ¬ s.Listens := by
    intro he hl
    unfold Listens at hl
    rw [← he, hpc] at hl
    cases hl
  split
  next hstate =>
    have hstays : Waits ({ s with
        sched_state := Function.update s.sched_state e .waiting
        runnable := Function.update s.runnable e false }.goto e .wait) e :=
      Or.inr ⟨goto_pc _ _ _, Function.update_self _ _ _, Function.update_self _ _ _⟩
    apply h.next _ (fun _ => ⟨hstays, rfl⟩) hsleeps hrests
    · intro hw
      obtain ⟨-, hsrc⟩ | ⟨he, hl, -⟩ := h.registered e hw
      · exact Or.inl ⟨hstays, hsrc⟩
      · exact absurd hl (hlistens he)
    · exact place_goto trivial
    · apply Spares.goto
      constructor <;> simp [peer_ne]
  next hstate =>
    have hwaits : ¬ s.Waits e := by
      intro hw
      obtain ⟨-, hprep⟩ | ⟨hwait, -⟩ := hw
      · exact hstate hprep
      · rw [hpc] at hwait
        cases hwait
    apply h.next ((Spares.refl s _).goto _) (fun hw => absurd hw hwaits) hsleeps hrests
    · intro hw
      obtain ⟨he, hl, -⟩ := h.listens hw hwaits
      exact absurd hl (hlistens he)
    · exact place_goto trivial

theorem Sound.wait (h : s.Sound) (hpc : s.pc e = .wait) (hr : s.runnable e = true) :
    (s.goto e .idle).Sound := by
  have hwaits : ¬ s.Waits e := by
    intro hw
    obtain ⟨hin, -⟩ | ⟨-, -, hrun⟩ := hw
    · rw [hpc] at hin
      cases hin
    · rw [hr] at hrun
      cases hrun
  apply h.next ((Spares.refl s _).goto _)
  · intro hw
    exact absurd hw hwaits
  · exact not_sleeps_of_runnable hr
  · intro he
    subst he
    exact not_rests_of_ne (by simp [hpc])
  · intro hw
    obtain ⟨he, hl, -⟩ := h.listens hw hwaits
    unfold Listens at hl
    rw [← he, hpc] at hl
    cases hl
  · exact place_goto trivial

/-! ### A step that changes the other party -/

/-- A party that has taken the registration of its peer makes it ready: the peer
waits, so the reader does not rest. -/
theorem Sound.wake (h : s.Sound) (hpc : s.pc e = .wake q) :
    ({ s with sched_state := Function.update s.sched_state q .ready }.goto e
      (if s.sched_state q = SchedState.waiting then .schedule q else .idle)).Sound := by
  have hplace := h.place e
  rw [hpc] at hplace
  obtain ⟨rfl, hnone, hwaits⟩ := hplace
  have hrests : ¬ s.Rests := by
    apply not_rests_of_peer (e := e)
    · rw [hpc]
      rfl
    · intro done hdone
      exact not_waits_of_altWait hdone hwaits
  constructor
  · intro p hp
    change s.waiting = some p at hp
    rw [hnone] at hp
    cases hp
  · intro p
    obtain rfl | rfl := eq_or_peer p e
    · apply place_goto
      split
      next hstate =>
        obtain ⟨-, hprep⟩ | ⟨hwait, -, hrun⟩ := hwaits
        · rw [hstate] at hprep
          cases hprep
        · refine ⟨rfl, hnone, ?_, Function.update_self _ _ _, hrun⟩
          exact (Function.update_of_ne (peer_ne p) _ _).trans hwait
      next => trivial
    · have hpeer := h.place e.peer
      change Place _ _ (Function.update s.pc e _ e.peer)
      rw [Function.update_of_ne (peer_ne e)]
      obtain ⟨hin, -⟩ | ⟨hwait, -⟩ := hwaits
      · cases hpc' : s.pc e.peer with
        | free q =>
            rw [hpc'] at hpeer
            exact hpeer
        | freeWaiting q =>
            rw [hpc'] at hpeer
            exact hpeer
        | freeSchedule q =>
            rw [hpc'] at hpeer
            exact absurd hpeer.2.1 hrests
        | relinquish => trivial
        | _ =>
            rw [hpc'] at hin
            cases hin
      · rw [hwait]
        trivial
  · intro hwaker
    exact absurd (h.woken hwaker).1 hrests
  · intro halt
    exact absurd (h.resting halt).1 hrests

/-- And schedules it, if it has given up the processor. -/
theorem Sound.schedule (h : s.Sound) (hpc : s.pc e = .schedule q) :
    ({ s with runnable := Function.update s.runnable q true }.goto e .idle).Sound := by
  have hplace := h.place e
  rw [hpc] at hplace
  obtain ⟨rfl, hnone, hsleep⟩ := hplace
  have hrests : ¬ s.Rests := by
    apply not_rests_of_peer (e := e)
    · rw [hpc]
      rfl
    · intro done hdone
      rw [hsleep.1] at hdone
      cases hdone
  constructor
  · intro p hp
    change s.waiting = some p at hp
    rw [hnone] at hp
    cases hp
  · intro p
    obtain rfl | rfl := eq_or_peer p e
    · exact place_goto trivial
    · change Place _ _ (Function.update s.pc e _ e.peer)
      rw [Function.update_of_ne (peer_ne e), hsleep.1]
      trivial
  · intro hwaker
    exact absurd (h.woken hwaker).1 hrests
  · intro halt
    exact absurd (h.resting halt).1 hrests

/-- Somebody frees the reader, and is about to schedule it if it rests. -/
theorem Sound.frees (h : s.Sound) (halt : s.alt_state ≠ .ready) {waker : Bool}
    (hwaker : waker = true → s.Rests) :
    ({ s with alt_state := .ready, waker := waker } : Pair).Sound := by
  constructor
  · exact h.registered
  · intro e
    have hplace := h.place e
    change Place { s with alt_state := .ready, waker := waker } e (s.pc e)
    cases hpc : s.pc e with
    | freeSchedule q =>
        rw [hpc] at hplace
        exact absurd hplace.2.2.1 halt
    | _ =>
        rw [hpc] at hplace
        exact hplace
  · intro hw
    exact ⟨hwaker hw, rfl⟩
  · intro hw
    cases hw

/-- Somebody schedules the reader, which rests. -/
theorem Sound.scheduled (h : s.Sound) (hrests : s.Rests) (halt : s.alt_state = .ready)
    (hnone : ∀ q, s.pc .output ≠ .freeSchedule q) {waker : Bool} (hwaker : waker = false) :
    Sound { s with
      runnable := Function.update s.runnable .input true
      waker := waker } := by
  obtain ⟨⟨done, hdone⟩, -⟩ := hrests
  have hwaits : ¬ s.Waits .input := not_waits_of_altWait hdone
  constructor
  · intro e he
    cases e with
    | input => exact Or.inr (h.listens he hwaits)
    | output => exact h.registered .output he
  · intro e
    cases e with
    | input =>
        change Place _ _ (s.pc .input)
        rw [hdone]
        exact rfl
    | output =>
        have hplace := h.place .output
        change Place _ _ (s.pc .output)
        cases hpc : s.pc .output with
        | wake q =>
            rw [hpc] at hplace
            obtain ⟨rfl, -, hw⟩ := hplace
            exact absurd hw hwaits
        | schedule q =>
            rw [hpc] at hplace
            obtain ⟨rfl, -, hsleep⟩ := hplace
            exact absurd hsleep (not_sleeps_of_ne (by simp [hdone]))
        | freeSchedule q => exact absurd hpc (hnone q)
        | _ =>
            rw [hpc] at hplace
            exact hplace
  · intro hw
    change waker = true at hw
    rw [hwaker] at hw
    cases hw
  · intro hw
    change s.alt_state = .waiting at hw
    rw [halt] at hw
    cases hw

/-- `freeProcessMaybe(q)` by the writer, step by step. -/
theorem Sound.freeProcessMaybe (h : s.Sound)
    (hpc : s.pc e = .free q ∨ s.pc e = .freeWaiting q ∨ s.pc e = .freeSchedule q)
    (ht : s.run e ready = some t) : t.Sound := by
  have hplace := h.place e
  obtain hpc | hpc | hpc := hpc
  · rw [hpc] at hplace
    obtain ⟨rfl, rfl⟩ := hplace
    simp only [Pair.run, hpc, Option.some.injEq] at ht
    subst ht
    split
    next halt =>
      have hfreed := h.frees (by rw [halt]; decide) (fun hw => (h.woken hw).1)
      exact hfreed.continues .relinquish (by rw [hpc]; rfl) rfl trivial
    next => exact h.continues _ (by rw [hpc]; rfl) rfl ⟨rfl, rfl⟩
    next => exact h.continues _ (by rw [hpc]; rfl) rfl trivial
  · rw [hpc] at hplace
    obtain ⟨rfl, rfl⟩ := hplace
    simp only [Pair.run, hpc, Option.some.injEq] at ht
    subst ht
    split
    next halt =>
      have hfreed := h.frees (by rw [halt]; decide) (fun hw => (h.woken hw).1)
      obtain ⟨hrests, hwaker⟩ := h.resting halt
      apply hfreed.continues (.freeSchedule .input) (by rw [hpc]; rfl) rfl
      refine ⟨⟨rfl, rfl⟩, ?_, rfl, hwaker⟩
      exact hrests
    next => exact h.continues _ (by rw [hpc]; rfl) rfl trivial
  · rw [hpc] at hplace
    obtain ⟨⟨rfl, rfl⟩, hrests, halt, hwaker⟩ := hplace
    simp only [Pair.run, hpc, Option.some.injEq] at ht
    subst ht
    have hmoved : (s.goto .output .relinquish).Sound :=
      h.continues _ (by rw [hpc]; rfl) rfl trivial
    exact hmoved.scheduled hrests halt (by simp [goto_pc]) hwaker

/-- Somebody else frees the reader. -/
theorem Sound.free (h : s.Sound) (ht : s.step .free = some t) : t.Sound := by
  simp only [Pair.step] at ht
  split at ht
  next halt =>
    cases ht
    exact h.frees (by rw [halt]; decide) (fun hw => (h.woken hw).1)
  next halt =>
    cases ht
    exact h.frees (by rw [halt]; decide) (fun _ => (h.resting halt).1)
  next => cases ht

theorem Sound.schedule_reader (h : s.Sound) (ht : s.step .schedule = some t) : t.Sound := by
  obtain ⟨hw, ht⟩ := Option.ite_none_right_eq_some.mp ht
  cases ht
  obtain ⟨hrests, halt⟩ := h.woken hw
  apply h.scheduled hrests halt _ rfl
  intro q hpc
  have hplace := h.place .output
  rw [hpc] at hplace
  rw [hplace.2.2.2] at hw
  cases hw

theorem Sound.run (h : s.Sound) (ht : s.run e ready = some t) : t.Sound := by
  have hs := ht
  unfold Pair.run at ht
  split at ht
  next => cases ht
  next b hpc =>
    cases e with
    | input => exact h.in hpc ht
    | output => exact h.out hpc ht
  next q hpc =>
    cases ht
    exact h.wake hpc
  next q hpc =>
    cases ht
    exact h.schedule hpc
  next q hpc => exact h.freeProcessMaybe (Or.inl hpc) hs
  next q hpc => exact h.freeProcessMaybe (Or.inr (Or.inl hpc)) hs
  next q hpc => exact h.freeProcessMaybe (Or.inr (Or.inr hpc)) hs
  next hpc =>
    cases ht
    exact h.relinquish hpc
  next hpc =>
    obtain ⟨hr, ht⟩ := Option.ite_none_right_eq_some.mp ht
    cases ht
    exact h.wait hpc hr
  next done todo hpc =>
    cases ht
    have hplace := h.place e
    rw [hpc] at hplace
    obtain rfl : e = .input := hplace
    exact h.enable hpc
  next done hpc =>
    have hplace := h.place e
    rw [hpc] at hplace
    obtain rfl : e = .input := hplace
    exact h.shouldWait hpc hs
  next done hpc =>
    have hplace := h.place e
    rw [hpc] at hplace
    obtain rfl : e = .input := hplace
    obtain ⟨hr, ht⟩ := Option.ite_none_right_eq_some.mp ht
    cases ht
    exact h.resume hpc hr
  next done hpc =>
    cases ht
    have hplace := h.place e
    rw [hpc] at hplace
    obtain rfl : e = .input := hplace
    exact h.disable hpc
  next hpc =>
    cases ht
    have hplace := h.place e
    rw [hpc] at hplace
    obtain rfl : e = .input := hplace
    exact h.finish hpc

theorem isIdle_iff : s.isIdle e = true ↔ s.pc e = .idle := by
  unfold isIdle
  split <;> simp_all

theorem Sound.step {a : PairAct} (h : s.Sound) (ht : s.step a = some t) : t.Sound := by
  cases a with
  | «in» b =>
      obtain ⟨hi, ht⟩ := Option.ite_none_right_eq_some.mp ht
      cases ht
      exact h.call_in (isIdle_iff.mp hi)
  | try_in b =>
      obtain ⟨hi, ht⟩ := Option.ite_none_right_eq_some.mp ht
      obtain ⟨⟨t, r⟩, hr, rfl⟩ := Option.map_eq_some_iff.mp ht
      exact h.try_in (isIdle_iff.mp hi) hr
  | select guards =>
      obtain ⟨hi, ht⟩ := Option.ite_none_right_eq_some.mp ht
      cases ht
      exact h.select (isIdle_iff.mp hi) guards
  | out b =>
      obtain ⟨hi, ht⟩ := Option.ite_none_right_eq_some.mp ht
      cases ht
      exact h.call_out (isIdle_iff.mp hi)
  | run e ready => exact h.run ht
  | free => exact h.free ht
  | schedule => exact h.schedule_reader ht

/-! ### The tests -/

theorem try_in_of_none (hw : s.waiting = none) : s.try_in b = some (s, false) := by
  simp [Pair.try_in, hw]

theorem inAlone_of_none (hpc : s.pc .input = .idle) (hw : s.waiting = none) :
    s.inAlone b = none := by
  simp [inAlone, exec, Pair.step, Pair.run, Pair.in, isIdle, goto, await, hpc, hw]

theorem inAlone_of_writer (hpc : s.pc .input = .idle) (hw : s.waiting = some .output)
    (hc : copies b.addr s.ptr b.len = true) : ∃ t, s.inAlone b = some t := by
  by_cases hst : s.sched_state .output = .waiting <;>
    simp [inAlone, exec, Pair.step, Pair.run, Pair.in, isIdle, goto, clear, hpc, hw, hc, hst]

/-- Between two buffers that are not null, or of no length, a copy is defined. -/
theorem copies_of_accepted {src : Nat} (b : Buffer) (hsrc : src ≠ 0) :
    copies b.addr src b.len = true := by
  by_cases hb : b.addr = 0
  · simp [copies, b.accepted hb]
  · simp [copies, hb, hsrc]

theorem agree_of_none (hpc : s.pc .input = .idle) (hw : s.waiting = none) : s.Agree := by
  constructor
  · simp [Pair.chan_pending, hw]
  · intro b
    simp [try_in_of_none hw, hw]
  · simp [Pair.enable_channel, hw]
  · intro b
    simp [inAlone_of_none hpc hw, hw]

theorem agree_of_writer (hpc : s.pc .input = .idle) (hw : s.waiting = some .output)
    (hptr : s.ptr ≠ 0) : s.Agree := by
  constructor
  · simp [Pair.chan_pending, hw, hptr]
  · intro b
    simp [Pair.try_in, hw, copies_of_accepted b hptr]
  · simp [Pair.enable_channel, hw]
  · intro b
    simp [inAlone_of_writer hpc hw (copies_of_accepted b hptr), hw]

theorem Sound.agree_iff (h : s.Sound) (hpc : s.pc .input = .idle) :
    s.Agree ↔ (s.waiting = some .output → s.src ≠ 0) := by
  cases hw : s.waiting with
  | none => simp [agree_of_none hpc hw]
  | some q =>
      obtain rfl : q = .output :=
        h.finds_peer (e := .input) (by rw [hpc]; rfl) (by rw [hpc]; rfl) hw
      have hptr : s.ptr = s.src := by
        obtain ⟨-, hsrc⟩ | ⟨hin, -⟩ := h.registered _ hw
        · exact hsrc rfl
        · cases hin
      constructor
      · intro hagree _ hnull
        have hpending := hagree.chan_pending.mpr hw
        simp [Pair.chan_pending, hptr, hnull] at hpending
      · intro hsrc
        apply agree_of_writer hpc hw
        rw [hptr]
        exact hsrc rfl

end Pair

/-- **The readiness tests.**  At every moment of every run at which the reader
is in no call, its four tests agree exactly if the registered writer, if there
is one, did not pass a null pointer. -/
theorem tests_agree_iff (acts : List PairAct) :
    Throughout Pair.step
      (fun s => s.isIdle .input = true →
        (s.Agree ↔ (s.waiting = some .output → s.src ≠ 0)))
      Pair.init acts := by
  apply throughout_of_along (I := Pair.Sound) (C := fun _ _ => True)
  · intro s a t hs _ ht
    exact hs.step ht
  · intro s hs hidle
    exact hs.agree_iff (Pair.isIdle_iff.mp hidle)
  · exact along_true Pair.init acts
  · exact Pair.Sound.init

/-- A writer that writes nothing, from a null pointer, is registered, and
`chan_pending` denies it. -/
theorem null_writer_not_pending :
    ¬ ∀ acts, Throughout Pair.step (fun s => s.isIdle .input = true → s.Agree)
      Pair.init acts := by
  intro h
  have hagree := (((h [.out ⟨0, 0, fun _ => rfl⟩, .run .output false, .run .output false]).2
    _ rfl).2 _ rfl).2 _ rfl rfl
  have hpending := hagree.chan_pending.mpr rfl
  cases hpending

end Cxp
