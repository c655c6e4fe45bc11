import Cxp.AlternationCalls
import Mathlib.Data.List.Rotate

/-!
# The order in which guards are selected, and what a select leaves behind

For every call of `priSelect` and `fairSelect` that some run makes:

* **Order** (`selects_in_order`).  The guard selected is ready, and none before
  it, from the guard which the search starts at, was ready when the call began
  or when it was disabled.  Where nothing changes meanwhile, `fairSelect` does
  what `priSelect` does with the guards rotated.
* **Fairness** (`fairSelect_fair`).  Of `nrGuards` calls of `fairSelect` one
  selects a guard that is ready at the start of each.
* **Channels** (`selects_leave_channels`).  The process waits on no channel any
  more, the writers still do, and no other channel has been changed.
-/

namespace Cxp

open OrderedSearch Run

variable {N U : Nat} {A Chan Msg : Type} [DecidableEq A] [DecidableEq Chan]
  {net : Net N Chan} {pun : Fin N → Fin U} {owner : A → Fin N}

/-- The call is one that some run makes. -/
def Alts.Makes (net : Net N Chan) (pun : Fin N → Fin U) (owner : A → Fin N)
    (e : CompletedCall N U Chan Msg) : Prop :=
  ∃ (proc : Fin N) (msg : Msg) (alts : A → Alternation Chan)
    (acts : List (AltAct N U A Chan Msg)) (s : Alts N U A Chan Msg) (a : A),
    (∀ a, (alts a).favorite < (alts a).guards.length) ∧
      exec (Alts.step net pun owner) (Alts.init N U proc msg alts) acts = some s ∧
      e ∈ s.calls a

/-- The invariant holds of every state of every run. -/
theorem Alts.sound_of_exec {proc : Fin N} {msg : Msg} {alts : A → Alternation Chan}
    (halts : ∀ a, (alts a).favorite < (alts a).guards.length)
    {acts : List (AltAct N U A Chan Msg)} {s : Alts N U A Chan Msg}
    (hrun : exec (step net pun owner) (init N U proc msg alts) acts = some s) :
    Sound net owner s :=
  Reachable.invariant (I := Sound net owner) (fun _ _ _ h hstep => h.step hstep)
    ⟨acts, hrun⟩ (sound_init proc msg alts halts)

theorem Alts.Makes.proper {e : CompletedCall N U Chan Msg} (h : Makes net pun owner e) :
    e.Proper net := by
  obtain ⟨_, _, _, _, s, a, halts, hrun, he⟩ := h
  exact (((sound_of_exec halts hrun).log a).proper e he).1

/-- A call that a run makes may be found by a test. -/
theorem Alts.makes_of_any {proc : Fin N} {msg : Msg} {alts : A → Alternation Chan}
    (halts : ∀ a, (alts a).favorite < (alts a).guards.length)
    {acts : List (AltAct N U A Chan Msg)} {a : A} {p : CompletedCall N U Chan Msg → Bool}
    (hrun : (exec (step net pun owner) (init N U proc msg alts) acts).any
      (fun s => (s.calls a).any p) = true) :
    ∃ e, Makes net pun owner e ∧ p e = true := by
  obtain ⟨s, hs, hany⟩ := (Option.any_eq_true _ _).mp hrun
  obtain ⟨e, he, hp⟩ := List.any_eq_true.mp hany
  exact ⟨e, ⟨proc, msg, alts, acts, s, a, halts, hs, he⟩, hp⟩

namespace CompletedCall

variable {e e' : CompletedCall N U Chan Msg}

/-- The order of selection: the guard selected is the `m`-th one from the start,
and those before it were not ready when the call began, nor when they were
disabled. -/
structure InOrder (net : Net N Chan) (e : CompletedCall N U Chan Msg) : Prop where
  pri : e.fair = false → e.select.start = 0
  first : ∀ i, e.selected = some i →
    ∃ m g, m < e.select.size ∧ i = (e.select.start + m) % e.select.size ∧
      e.select.guards[i]? = some g ∧ g.Ready net e.returned ∧
      ∀ j, j < m → ∃ g' s,
        e.select.guards[(e.select.start + j) % e.select.size]? = some g' ∧
        e.disabled j = some s ∧ ¬ g'.Ready net e.began ∧ ¬ g'.Ready net s
  favorite : ∀ i, e.selected = some i → e.favorite = (i + 1) % e.select.size

/-- No guard became ready during the call. -/
def Unchanged (net : Net N Chan) (e : CompletedCall N U Chan Msg) : Prop :=
  ∀ g ∈ e.select.guards, g.Ready net e.returned → g.Ready net e.began

omit [DecidableEq Chan] in
theorem Proper.inOrder (h : e.Proper net) : e.InOrder net where
  pri := h.pri
  first := by
    intro i hi
    have hordered := h.ordered
    rw [hi] at hordered
    obtain ⟨m, _, rfl, hready, hbefore⟩ := hordered
    obtain ⟨g, hg, hready⟩ := hready
    obtain ⟨hm, hguard⟩ := Select.guard_index hg
    refine ⟨m, g, hm, rfl, hguard, hready, ?_⟩
    intro j hj
    obtain ⟨hmissed, hnot⟩ := hbefore j (Nat.zero_le j) hj
    obtain ⟨s, g', hs, hg', hno⟩ := hmissed
    refine ⟨g', s, (Select.guard_index hg').2, hs, ?_, hno⟩
    exact fun hready' => hnot ⟨g', hg', hready'⟩
  favorite := fun _ hi => h.favorite_eq hi

omit [DecidableEq Chan] in
/-- When nothing changes, the first guard that was ready is selected. -/
theorem Proper.first_ready (h : e.Proper net) (hsame : e.Unchanged net) {m : Nat}
    (hm : e.select.Ready net e.began m) (hfirst : ∀ j, j < m → ¬ e.select.Ready net e.began j) :
    e.selected = some (e.select.index m) := by
  cases hsel : e.selected with
  | none =>
      have hordered := h.ordered
      rw [hsel] at hordered
      obtain ⟨i, hi, _⟩ := hordered m (Nat.zero_le m) hm
      omega
  | some i =>
      have hordered := h.ordered
      rw [hsel] at hordered
      obtain ⟨l, _, rfl, hready, hbefore⟩ := hordered
      have hl : e.select.Ready net e.began l := by
        obtain ⟨g, hg, hready⟩ := hready
        have hmem := List.mem_of_getElem? (Select.guard_index hg).2
        exact ⟨g, hg, hsame g hmem hready⟩
      have hlm : l = m := by
        by_contra hne
        obtain hlt | hgt := Nat.lt_or_gt_of_ne hne
        · exact hfirst l hlt hl
        · exact (hbefore m (Nat.zero_le m) hgt).2 hm
      rw [hlm]

omit [DecidableEq Chan] in
/-- When nothing changes and no guard was ready, none is selected. -/
theorem Proper.none_ready (h : e.Proper net) (hsame : e.Unchanged net)
    (hnone : ∀ m, ¬ e.select.Ready net e.began m) : e.selected = none := by
  cases hsel : e.selected with
  | none => rfl
  | some i =>
      have hordered := h.ordered
      rw [hsel] at hordered
      obtain ⟨l, _, _, hready, _⟩ := hordered
      obtain ⟨g, hg, hready⟩ := hready
      have hmem := List.mem_of_getElem? (Select.guard_index hg).2
      exact absurd ⟨g, hg, hsame g hmem hready⟩ (hnone l)

omit [DecidableEq Chan] in
/-- Looking at rotated guards from the first on. -/
theorem guard_rotate {f f' : Select Chan} (hstart : f'.start = 0)
    (hrotate : f'.guards = f.guards.rotate f.start) (k : Nat) : f'.guard k = f.guard k := by
  have hsize : f'.size = f.size := by
    rw [Select.size, hrotate, List.length_rotate, Select.size]
  unfold Select.guard
  rw [hsize]
  split
  next hk =>
    have hindex : f'.index k = k := by
      rw [Select.index, hstart, hsize, Nat.zero_add, Nat.mod_eq_of_lt hk]
    rw [hindex, hrotate, List.getElem?_rotate hk, Select.index, Nat.add_comm]
    rfl
  next => rfl

omit [DecidableEq Chan] in
/-- **`fairSelect` is `priSelect` rotated**, where nothing changes. -/
theorem Proper.rotate (h : e.Proper net) (h' : e'.Proper net) (hpri : e'.fair = false)
    (hrotate : e'.select.guards = e.select.guards.rotate e.select.start)
    (hsame : e.Unchanged net) (hsame' : e'.Unchanged net)
    (hready : ∀ g ∈ e.select.guards, (g.Ready net e.began ↔ g.Ready net e'.began)) :
    e.selected = e'.selected.map fun i => (i + e.select.start) % e.select.size := by
  have hguard := guard_rotate (h'.pri hpri) hrotate
  have hsize : e'.select.size = e.select.size := by
    rw [Select.size, hrotate, List.length_rotate, Select.size]
  have hiff : ∀ k, e'.select.Ready net e'.began k ↔ e.select.Ready net e.began k := by
    intro k
    unfold Select.Ready
    rw [hguard k]
    refine exists_congr fun g => and_congr_right fun hg => (hready g ?_).symm
    exact List.mem_of_getElem? (Select.guard_index hg).2
  by_cases hsome : ∃ m, e.select.Ready net e.began m
  · classical
    -- the first guard that was ready
    have hm := Nat.find_spec hsome
    have hfirst : ∀ j, j < Nat.find hsome → ¬ e.select.Ready net e.began j :=
      fun j hj => Nat.find_min hsome hj
    have hsel := h.first_ready hsame hm hfirst
    have hsel' := h'.first_ready hsame' ((hiff _).mpr hm)
      fun j hj hr => hfirst j hj ((hiff j).mp hr)
    rw [hsel, hsel', Option.map_some, Select.index, Select.index, h'.pri hpri, hsize,
      Nat.mod_add_mod, Nat.zero_add, Nat.add_comm]
  · have hnone : ∀ m, ¬ e.select.Ready net e.began m := fun m hm => hsome ⟨m, hm⟩
    rw [h.none_ready hsame hnone, h'.none_ready hsame' fun m hm => hnone m ((hiff m).mp hm)]
    rfl

omit [DecidableEq Chan] in
/-- A call on which a guard was ready at the start selects it, or leaves the
favorite nearer to it. -/
theorem Proper.nearer (h : e.Proper net) {i : Nat} {g : Guard Chan}
    (hg : e.select.guards[i]? = some g) (hready : g.Ready net e.began)
    (hmiss : e.selected ≠ some i) :
    ahead e.select.size e.favorite i < ahead e.select.size e.select.start i := by
  have hi : i < e.select.size := (List.getElem?_eq_some_iff.mp hg).1
  have hindex : e.select.index (ahead e.select.size e.select.start i) = i :=
    add_ahead h.start hi
  have hwas : e.select.Ready net e.began (ahead e.select.size e.select.start i) := by
    refine ⟨g, ?_, hready⟩
    rw [Select.guard, if_pos (ahead_lt_size (by omega)), hindex]
    exact hg
  obtain ⟨m, hm, hsel⟩ := h.ordered.settled hwas
  have hlt : m < ahead e.select.size e.select.start i := by
    apply Nat.lt_of_le_of_ne hm
    intro heq
    rw [hsel, heq, hindex] at hmiss
    exact hmiss rfl
  exact ahead_lt h.start hi hlt (h.favorite_eq hsel)

end CompletedCall

/-- The fairness of `fairSelect` on alternation `a`. -/
structure Alts.Fair (net : Net N Chan) (s : Alts N U A Chan Msg) (a : A) : Prop where
  /-- a guard ready at the start comes nearer, if it is not selected -/
  nearer : ∀ e ∈ s.calls a, e.fair = true →
    ∀ i g, e.select.guards[i]? = some g → g.Ready net e.began → e.selected ≠ some i →
      ahead e.select.size e.favorite i < ahead e.select.size e.select.start i
  /-- and is selected within `nrGuards` consecutive calls -/
  round : ∀ earlier round later, s.calls a = earlier ++ round ++ later →
    round.length = (s.alts a).guards.length → (∀ e ∈ round, e.fair = true) →
    ∀ i, (∀ e ∈ round, ∃ g, e.select.guards[i]? = some g ∧ g.Ready net e.began) →
      ∃ e ∈ round, e.selected = some i

omit [DecidableEq A] [DecidableEq Chan] in
theorem Alts.Log.fair {s : Alts N U A Chan Msg} {a : A} {p : Fin N}
    (h : Log net p (s.alts a) (s.calls a)) : Fair net s a where
  nearer := fun e he _ _ _ hg hready hmiss => (h.proper e he).1.nearer hg hready hmiss
  round := by
    intro earlier round later hcalls hlength hfair i hready
    have hmem : ∀ e ∈ round, e ∈ s.calls a := by
      intro e he
      rw [hcalls]
      exact List.mem_append_left _ (List.mem_append_right _ he)
    have hchain := h.chained
    rw [hcalls] at hchain
    have hround := hchain.left_of_append.right_of_append.imp_of_mem_imp
      (S := fun e e' => e'.select.start = e.favorite) fun e e' _ he' himp => himp (hfair e' he')
    have hbound := h.bound
    apply exists_hit (d := fun b => ahead (s.alts a).guards.length b i) hround
    · intro e he hmiss
      obtain ⟨g, hg, hr⟩ := hready e he
      have hnearer := (h.proper e (hmem e he)).1.nearer hg hr hmiss
      rw [h.sized e (hmem e he)] at hnearer
      exact hnearer
    · intro hnil
      rw [hnil, List.length_nil] at hlength
      omega
    · intro e _
      rw [hlength]
      exact ahead_lt_size (by omega)

/-- **Guards are selected in order.** -/
theorem selects_in_order {e : CompletedCall N U Chan Msg} (h : Alts.Makes net pun owner e) :
    e.InOrder net ∧
      ∀ e' : CompletedCall N U Chan Msg, Alts.Makes net pun owner e' →
        e.fair = true → e'.fair = false →
        e'.select.guards = e.select.guards.rotate e.select.start →
        e.Unchanged net → e'.Unchanged net →
        (∀ g ∈ e.select.guards, (g.Ready net e.began ↔ g.Ready net e'.began)) →
        e.selected = e'.selected.map fun i => (i + e.select.start) % e.select.size := by
  refine ⟨h.proper.inOrder, ?_⟩
  intro e' h' _ hpri hrotate hsame hsame' hready
  exact h.proper.rotate h'.proper hpri hrotate hsame hsame' hready

/-- `fairSelect` from the second guard, and `priSelect` with the guards rotated,
while no writer is there. -/
theorem selects_in_order_skip :
    ∃ e e' : CompletedCall 2 1 Unit Unit, e.InOrder oneChannel ∧ e.selected = some 1 ∧
      e.selected = e'.selected.map fun i => (i + 1) % 2 := by
  have hfair : (exec (Alts.step oneChannel (fun _ => (0 : Fin 1)) fun _ : Unit => (0 : Fin 2))
      (Alts.init 2 1 0 () fun _ => ⟨[.chan (), .skip], 1⟩)
      [.fairSelect (),
        .comm (.run 0), .comm (.run 0), .comm (.run 0), .comm (.run 0), .comm (.run 0)]).any
        (fun s => (s.calls ()).any fun e => e.fair = true ∧
          e.select = ⟨[.chan (), .skip], 1⟩ ∧ e.selected = some 1 ∧
          e.began.waiting () = none ∧ e.returned.waiting () = none) = true := by
    decide +kernel
  have hpri : (exec (Alts.step oneChannel (fun _ => (0 : Fin 1)) fun _ : Unit => (0 : Fin 2))
      (Alts.init 2 1 0 () fun _ => ⟨[.skip, .chan ()], 0⟩)
      [.priSelect (),
        .comm (.run 0), .comm (.run 0), .comm (.run 0), .comm (.run 0), .comm (.run 0)]).any
        (fun s => (s.calls ()).any fun e => e.fair = false ∧
          e.select = ⟨[.skip, .chan ()], 0⟩ ∧
          e.began.waiting () = none ∧ e.returned.waiting () = none) = true := by
    decide +kernel
  obtain ⟨e, he, htest⟩ := Alts.makes_of_any (by simp) hfair
  obtain ⟨e', he', htest'⟩ := Alts.makes_of_any (by simp) hpri
  obtain ⟨h1, hf, h2, h3, h4⟩ := of_decide_eq_true htest
  obtain ⟨h1', hf', h3', h4'⟩ := of_decide_eq_true htest'
  have hresult := (selects_in_order he).2 e' he' h1 h1' (by rw [hf, hf']; rfl)
    (by simp [CompletedCall.Unchanged, hf, Guard.Ready, h4])
    (by simp [CompletedCall.Unchanged, hf', Guard.Ready, h4'])
    (by simp [hf, Guard.Ready, h3, h3'])
  refine ⟨e, e', (selects_in_order he).1, h2, ?_⟩
  rw [hf] at hresult
  exact hresult

/-- **`fairSelect` is fair** within one round of calls. -/
theorem fairSelect_fair (net : Net N Chan) (pun : Fin N → Fin U) (owner : A → Fin N)
    (proc : Fin N) (msg : Msg) (alts : A → Alternation Chan)
    (halts : ∀ a, (alts a).favorite < (alts a).guards.length)
    (acts : List (AltAct N U A Chan Msg)) :
    Throughout (Alts.step net pun owner) (fun s => ∀ a, s.Fair net a)
      (Alts.init N U proc msg alts) acts :=
  throughout_of_along (I := Alts.Sound net owner) (fun _ _ _ h _ hstep => h.step hstep)
    (fun _ h a => (h.log a).fair) (along_true _ _) (Alts.sound_init proc msg alts halts)

/-- Two calls with two skip guards. -/
theorem fairSelect_fair_two_skips :
    Throughout (Alts.step oneChannel (fun _ => (0 : Fin 1)) fun _ : Unit => (0 : Fin 2))
      (fun s => ∀ a, s.Fair oneChannel a) (Alts.init 2 1 0 () fun _ => ⟨[.skip, .skip], 1⟩)
      [.fairSelect (), .comm (.run 0), .comm (.run 0), .comm (.run 0), .comm (.run 0),
        .comm (.run 0), .fairSelect (), .comm (.run 0), .comm (.run 0), .comm (.run 0),
        .comm (.run 0), .comm (.run 0)] :=
  fairSelect_fair oneChannel _ _ 0 () _ (by simp) _

/-- The channels and the writers when a select returns. -/
structure CompletedCall.Leaves (net : Net N Chan) (e : CompletedCall N U Chan Msg) : Prop where
  /-- the process waits on no channel -/
  absent : ∀ ch, e.returned.waiting ch ≠ some e.proc
  /-- a writer seen registered on a guard channel still is, with its buffer -/
  writers : ∀ ch, .chan ch ∈ e.select.guards → e.seen ch = true →
    e.returned.waiting ch = some (net.role ch .output) ∧
      e.returned.ptr ch = some (net.role ch .output)
  /-- a channel of no guard that the enabling loop reached was not changed -/
  untouched : ∀ ch, ¬ e.select.Active e.reached ch → e.changed ch = false

/-- **A select leaves its channels clean and its writers registered.** -/
theorem selects_leave_channels {e : CompletedCall N U Chan Msg}
    (h : Alts.Makes net pun owner e) : e.Leaves net where
  absent := h.proper.absent
  writers := h.proper.writers
  untouched := by
    intro ch hch
    by_contra hne
    exact hch (h.proper.changed ch (by simpa using hne))

/-- The channel twice, and the writer arriving between the two. -/
theorem selects_leave_channels_twice :
    ∃ e : CompletedCall 2 1 Unit Unit, e.Leaves oneChannel ∧ e.selected = some 0 ∧
      e.seen () = true := by
  have hrun : (exec (Alts.step oneChannel (fun _ => (0 : Fin 1)) fun _ : Unit => (0 : Fin 2))
      (Alts.init 2 1 0 () fun _ => ⟨[.chan (), .chan ()], 0⟩)
      [.priSelect (), .comm (.run 0), .comm (.out () ()), .comm (.run 1), .comm (.run 0),
        .comm (.run 0), .comm (.run 0), .comm (.run 0), .comm (.run 0), .comm (.run 0)]).any
        (fun s => (s.calls ()).any fun e => e.selected = some 0 ∧ e.seen () = true) = true := by
    decide +kernel
  obtain ⟨e, he, htest⟩ := Alts.makes_of_any (by simp) hrun
  obtain ⟨hsel, hseen⟩ := of_decide_eq_true htest
  exact ⟨e, selects_leave_channels he, hsel, hseen⟩

end Cxp
