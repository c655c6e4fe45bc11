import Cxp.TimerRun

/-!
# Who owns a timeout descriptor (`timer.c`, `memory.c`)

A descriptor is in one timer queue, or on the free list, or with the process
that is about to insert or to release it.  `TimersOk` is what holds of the
queues and the free list, `ProcessOk` what holds of each process.

The one step that can break this is the search of `disable_timeout`: when its
entry is gone and a later one is queued, that later one is returned, and then
released while it is still queued.
-/

namespace Cxp

open LinkedChain Run Timers

variable {N U : Nat} {pun : Fin N → Fin U}

/-- In `After`, with the descriptor already inserted. -/
def TimerPc.inAfter : TimerPc N → Bool
  | .read _ .after | .arm _ .after _ | .relinquish | .wait => true
  | _ => false

/-- In `After`, and not yet waiting. -/
def TimerPc.entering : TimerPc N → Bool
  | .read _ .after | .arm _ .after _ | .relinquish => true
  | _ => false

/-- The descriptor that a process has, to insert it or to release it. -/
def TimerPc.holds : TimerPc N → Option (DescRef N)
  | .link desc _ => some desc
  | .release _ desc => some desc
  | _ => none

/-- A descriptor from the allocator. -/
def Timers.Carved (tm : Timers N U) (d : DescRef N) : Prop :=
  ∃ n, n < tm.carved ∧ d = .heap n

theorem Timers.Carved.ne_stack {tm : Timers N U} {d : DescRef N}
    (h : tm.Carved d) (p : Fin N) : d ≠ .stack p := by
  obtain ⟨n, _, rfl⟩ := h
  simp

/-- The queues `q` and the free list `free`. -/
structure TimersOk (pun : Fin N → Fin U) (tm : Timers N U)
    (q : Fin U → List (DescRef N)) (free : List (DescRef N)) : Prop where
  chain : ∀ π, Chain tm.next (tm.head π) (q π)
  ordered : ∀ π, tm.Ordered (q π)
  home : ∀ π, ∀ d ∈ q π, pun (tm.proc d) = π
  queued : ∀ π, ∀ d ∈ q π,
    (tm.Carved d ∧ tm.type d = .alting) ∨
      ∃ p, d = .stack p ∧ tm.proc d = p ∧ tm.type d = .after
  free_chain : Chain tm.link tm.procmemlist free
  free_carved : ∀ d ∈ free, tm.Carved d
  free_apart : ∀ d ∈ free, ∀ π, d ∉ q π

/-- Process `p`, with its scheduling state and its place. -/
structure ProcessOk (tm : Timers N U) (q : Fin U → List (DescRef N))
    (free : List (DescRef N)) (p : Fin N) (st : SchedState) (pc : TimerPc N) :
    Prop where
  queued : ∀ π, DescRef.stack p ∈ q π → pc.inAfter = true ∧ st ≠ .ready
  held : ∀ d, pc.holds = some d → d ∉ free ∧ (∀ π, d ∉ q π) ∧ tm.proc d = p
  inserts : ∀ d type, pc = .link d type → tm.type d = type ∧
    (type = .after → d = .stack p ∧ st = .preparingToWait) ∧
    (type = .alting → tm.Carved d)
  releases : ∀ time d, pc = .release time d → tm.time d = time ∧ tm.Carved d
  entering : pc.entering = true → st ≠ .waiting

/-- The invariant of runs in which every search finds its entry. -/
structure Owned (pun : Fin N → Fin U) (s : TimerState N U)
    (q : Fin U → List (DescRef N)) (free : List (DescRef N)) : Prop where
  timers : TimersOk pun s.tm q free
  processes : ∀ p, ProcessOk s.tm q free p (s.sched_state p) (s.pc p)
  alone : ∀ p r d, (s.pc p).holds = some d → (s.pc r).holds = some d → p = r

/-- What the users of timeouts rely on.  The queues and the free list are
lists of distinct descriptors, apart from each other, no descriptor of an
`After` is free, and a process about to release a descriptor has one that
belongs to it, is of the given time, and is in no queue nor free. -/
def TimeoutsSafe (s : TimerState N U) : Prop :=
  ∃ (q : Fin U → List (DescRef N)) (free : List (DescRef N)),
    (∀ π, Chain s.tm.next (s.tm.head π) (q π)) ∧
    Chain s.tm.link s.tm.procmemlist free ∧
    (∀ π ρ, π ≠ ρ → ∀ d ∈ q π, d ∉ q ρ) ∧
    (∀ d ∈ free, (∀ π, d ∉ q π) ∧ ∀ r, d ≠ .stack r) ∧
    ∀ p time d, s.pc p = .release time d →
      (∀ π, d ∉ q π) ∧ d ∉ free ∧ s.tm.time d = time ∧ s.tm.proc d = p ∧
        ∀ r, d ≠ .stack r

/-- The search of a `disable_timeout` finds its entry, or nothing later. -/
def DisableFinds (pun : Fin N → Fin U) (s : TimerState N U) :
    TimerAct N U → Prop
  | .run p => ∀ time, s.pc p = .remove time →
      ∃ q, Chain s.tm.next (s.tm.head (pun p)) q ∧ s.tm.Finds time p q
  | _ => True

section Invariant

variable {tm tm' : Timers N U} {s t : TimerState N U}
  {q q' : Fin U → List (DescRef N)} {free free' : List (DescRef N)}

theorem TimersOk.fuel (h : TimersOk pun tm q free) (π : Fin U) :
    (q π).length < tm.fuel := by
  refine length_lt_fuel (h.chain π).nodup fun n hn => ?_
  rcases h.queued π _ hn with ⟨⟨m, hm, heq⟩, _⟩ | ⟨p, heq, _⟩
  · cases heq
    exact hm
  · cases heq

/-- A descriptor is in the queue of its process's processor only. -/
theorem TimersOk.queue_unique (h : TimersOk pun tm q free) {π ρ : Fin U}
    {d : DescRef N} (hπ : d ∈ q π) (hρ : d ∈ q ρ) : π = ρ :=
  (h.home π d hπ).symm.trans (h.home ρ d hρ)

theorem Owned.safe (h : Owned pun s q free) : TimeoutsSafe s := by
  refine ⟨q, free, h.timers.chain, h.timers.free_chain, ?_, ?_, ?_⟩
  · intro π ρ hne d hπ hρ
    exact hne (h.timers.queue_unique hπ hρ)
  · intro d hd
    exact ⟨h.timers.free_apart d hd, (h.timers.free_carved d hd).ne_stack⟩
  · intro p time d hpc
    have hheld := (h.processes p).held d (by simp [hpc, TimerPc.holds])
    have hrel := (h.processes p).releases time d hpc
    exact ⟨hheld.2.1, hheld.1, hrel.1, hheld.2.2, hrel.2.ne_stack⟩

theorem owned_init (proc : Fin N) :
    Owned pun (TimerState.init N U proc) (fun _ => []) [] := by
  refine ⟨?_, fun p => ?_, ?_⟩
  · constructor <;> simp [TimerState.init, timer_init, Ordered]
  · constructor <;>
      simp [TimerState.init, TimerPc.holds, TimerPc.entering]
  · simp [TimerState.init, TimerPc.holds]

/-- What a process has to do with the timers: nothing of it changes when its
own descriptor is not newly queued and what it holds is left alone. -/
theorem ProcessOk.frame {p : Fin N} {st : SchedState} {pc : TimerPc N}
    (h : ProcessOk tm q free p st pc)
    (hqueued : ∀ π, DescRef.stack p ∈ q' π → ∃ ρ, DescRef.stack p ∈ q ρ)
    (hheld : ∀ d, pc.holds = some d →
      d ∉ free' ∧ (∀ π, d ∉ q' π) ∧ tm'.time d = tm.time d ∧
        tm'.proc d = tm.proc d ∧ tm'.type d = tm.type d)
    (hcarved : ∀ d, tm.Carved d → tm'.Carved d) :
    ProcessOk tm' q' free' p st pc := by
  refine ⟨?_, ?_, ?_, ?_, h.entering⟩
  · intro π hπ
    obtain ⟨ρ, hρ⟩ := hqueued π hπ
    exact h.queued ρ hρ
  · intro d hd
    obtain ⟨hf, hq, _, hproc, _⟩ := hheld d hd
    exact ⟨hf, hq, hproc ▸ (h.held d hd).2.2⟩
  · intro d type hpc
    obtain ⟨_, _, _, _, htype⟩ := hheld d (by simp [hpc, TimerPc.holds])
    obtain ⟨h1, h2, h3⟩ := h.inserts d type hpc
    exact ⟨htype ▸ h1, h2, fun ht => hcarved d (h3 ht)⟩
  · intro time d hpc
    obtain ⟨_, _, htime, _, _⟩ := hheld d (by simp [hpc, TimerPc.holds])
    obtain ⟨h1, h2⟩ := h.releases time d hpc
    exact ⟨htime ▸ h1, hcarved d h2⟩

/-- A process that holds nothing and has no descriptor queued. -/
theorem ProcessOk.idle {p : Fin N} {st : SchedState} {pc : TimerPc N}
    (hqueued : ∀ π, DescRef.stack p ∉ q π) (hholds : pc.holds = none)
    (hentering : pc.entering = true → st ≠ .waiting) :
    ProcessOk tm q free p st pc := by
  refine ⟨fun π hπ => absurd hπ (hqueued π), ?_, ?_, ?_, hentering⟩
  · simp [hholds]
  · rintro d type rfl
    simp [TimerPc.holds] at hholds
  · rintro time d rfl
    simp [TimerPc.holds] at hholds

/-- A step of one process, from what it does to the timers and to itself. -/
theorem Owned.acts (h : Owned pun s q free) {p : Fin N}
    (htimers : TimersOk pun t.tm q' free')
    (hp : ProcessOk t.tm q' free' p (t.sched_state p) (t.pc p))
    (hothers : ∀ r, r ≠ p → t.sched_state r = s.sched_state r ∧ t.pc r = s.pc r)
    (hqueued : ∀ r, r ≠ p → ∀ π, DescRef.stack r ∈ q' π →
      ∃ ρ, DescRef.stack r ∈ q ρ)
    (hheld : ∀ r, r ≠ p → ∀ d, (s.pc r).holds = some d →
      (t.pc p).holds ≠ some d ∧ d ∉ free' ∧ (∀ π, d ∉ q' π) ∧
        t.tm.time d = s.tm.time d ∧ t.tm.proc d = s.tm.proc d ∧
        t.tm.type d = s.tm.type d)
    (hcarved : ∀ d, s.tm.Carved d → t.tm.Carved d) : Owned pun t q' free' := by
  refine ⟨htimers, fun r => ?_, fun r r' d hr hr' => ?_⟩
  · by_cases hrp : r = p
    · exact hrp ▸ hp
    · rw [(hothers r hrp).1, (hothers r hrp).2]
      exact (h.processes r).frame (hqueued r hrp)
        (fun d hd => (hheld r hrp d hd).2) hcarved
  · by_cases hrp : r = p
    · by_cases hrp' : r' = p
      · exact hrp.trans hrp'.symm
      · rw [(hothers r' hrp').2] at hr'
        exact absurd (hrp ▸ hr) (hheld r' hrp' d hr').1
    · rw [(hothers r hrp).2] at hr
      by_cases hrp' : r' = p
      · exact absurd (hrp' ▸ hr') (hheld r hrp d hr).1
      · rw [(hothers r' hrp').2] at hr'
        exact h.alone r r' d hr hr'

/-- One process moves on, with nothing in hand, and the timers stay. -/
theorem Owned.moves (h : Owned pun s q free) {p : Fin N} {st : SchedState}
    {pc : TimerPc N} (hpc : pc.holds = none)
    (hp : ProcessOk s.tm q free p st pc) (ht : t.tm = s.tm)
    (hst : t.sched_state = Function.update s.sched_state p st)
    (htpc : t.pc = Function.update s.pc p pc) : Owned pun t q free := by
  refine h.acts (p := p) (ht ▸ h.timers) ?_ ?_ (fun r _ π hπ => ⟨π, hπ⟩) ?_
    (fun d hd => ht ▸ hd)
  · simpa [ht, hst, htpc] using hp
  · intro r hr
    simp [hst, htpc, hr]
  · intro r _ d hd
    have hheld := (h.processes r).held d hd
    exact ⟨by simp [htpc, hpc], hheld.1, hheld.2.1, by simp [ht]⟩

/-- A process outside `After` has no descriptor queued. -/
theorem Owned.not_queued (h : Owned pun s q free) {p : Fin N}
    (hpc : (s.pc p).inAfter = false) (π : Fin U) : DescRef.stack p ∉ q π := by
  intro hmem
  have := ((h.processes p).queued π hmem).1
  simp [hpc] at this

/-- A step that changes one queue. -/
theorem TimersOk.requeue (h : TimersOk pun tm q free) {π : Fin U}
    {l : List (DescRef N)} (hr : Requeued tm tm' π (q π) l)
    (hord : tm.Ordered l)
    (hnew : ∀ d ∈ l, d ∉ q π → d ∉ free ∧ (∀ ρ, d ∉ q ρ) ∧
      pun (tm.proc d) = π ∧ ((tm.Carved d ∧ tm.type d = .alting) ∨
        ∃ p, d = .stack p ∧ tm.proc d = p ∧ tm.type d = .after)) :
    TimersOk pun tm' (Function.update q π l) free := by
  have hcarved : ∀ d, tm.Carved d → tm'.Carved d := by
    intro d hd
    simpa [Timers.Carved, hr.carved_eq] using hd
  refine ⟨fun ρ => ?_, fun ρ => ?_, fun ρ d hd => ?_, fun ρ d hd => ?_, ?_,
    fun d hd => hcarved d (h.free_carved d hd), fun d hd ρ => ?_⟩
  · by_cases hρ : ρ = π
    · subst hρ
      simpa using hr.chain
    · rw [Function.update_of_ne hρ]
      refine hr.chain_other hρ (h.chain ρ) ?_ ?_
      · intro x hx hxπ
        exact hρ (h.queue_unique hx hxπ)
      · intro x hx hxl
        by_cases hxπ : x ∈ q π
        · exact hρ (h.queue_unique hx hxπ)
        · exact (hnew x hxl hxπ).2.1 ρ hx
  · have hmono : ∀ xs, tm.Ordered xs → tm'.Ordered xs := by
      intro xs hxs
      simpa [Timers.Ordered, hr.time_eq] using hxs
    by_cases hρ : ρ = π
    · subst hρ
      simpa using hmono l hord
    · rw [Function.update_of_ne hρ]
      exact hmono _ (h.ordered ρ)
  · rw [hr.proc_eq]
    by_cases hρ : ρ = π
    · subst hρ
      rw [Function.update_self] at hd
      by_cases hold : d ∈ q ρ
      · exact h.home ρ d hold
      · exact (hnew d hd hold).2.2.1
    · rw [Function.update_of_ne hρ] at hd
      exact h.home ρ d hd
  · rw [hr.proc_eq, hr.type_eq]
    have hold : (tm.Carved d ∧ tm.type d = .alting) ∨
        ∃ p, d = .stack p ∧ tm.proc d = p ∧ tm.type d = .after := by
      by_cases hρ : ρ = π
      · subst hρ
        rw [Function.update_self] at hd
        by_cases hold : d ∈ q ρ
        · exact h.queued ρ d hold
        · exact (hnew d hd hold).2.2.2
      · rw [Function.update_of_ne hρ] at hd
        exact h.queued ρ d hd
    exact hold.imp_left fun hk => ⟨hcarved d hk.1, hk.2⟩
  · rw [hr.link_eq, hr.free_eq]
    exact h.free_chain
  · by_cases hρ : ρ = π
    · subst hρ
      rw [Function.update_self]
      intro hdl
      by_cases hold : d ∈ q ρ
      · exact h.free_apart d hd ρ hold
      · exact (hnew d hdl hold).1 hd
    · rw [Function.update_of_ne hρ]
      exact h.free_apart d hd ρ

/-- Filling in a descriptor that is in no queue. -/
theorem TimersOk.fill (h : TimersOk pun tm q free) {d : DescRef N}
    (hd : ∀ π, d ∉ q π) (time : Int) (p : Fin N) (type : TimeoutType) :
    TimersOk pun (tm.fill d time p type) q free := by
  have hne : ∀ π, ∀ x ∈ q π, x ≠ d := fun π x hx heq => hd π (heq ▸ hx)
  refine ⟨h.chain, fun π => ?_, fun π x hx => ?_, fun π x hx => ?_,
    h.free_chain, h.free_carved, h.free_apart⟩
  · refine List.Pairwise.imp_of_mem ?_ (h.ordered π)
    intro a b ha hb hab
    simpa [Timers.fill, hne π a ha, hne π b hb] using hab
  · simpa [Timers.fill, hne π x hx] using h.home π x hx
  · simpa [Timers.fill, Timers.Carved, hne π x hx] using h.queued π x hx

/-- What `allocate_mem` hands out is neither queued nor free, and was not in
anybody's hands. -/
theorem TimersOk.allocate (h : TimersOk pun tm q free) :
    ∃ free', TimersOk pun tm.allocate_mem.2 q free' ∧
      (∀ d ∈ free', d ∈ free) ∧ tm.allocate_mem.1 ∉ free' ∧
      (∀ π, tm.allocate_mem.1 ∉ q π) ∧
      tm.allocate_mem.2.Carved tm.allocate_mem.1 ∧
      (∀ d, tm.Carved d → tm.allocate_mem.2.Carved d) ∧
      (tm.allocate_mem.1 ∈ free ∨ ¬ tm.Carved tm.allocate_mem.1) := by
  unfold Timers.allocate_mem
  cases hlist : tm.procmemlist with
  | some block =>
      have hfree := h.free_chain
      cases free with
      | nil =>
          rw [hlist] at hfree
          cases hfree
      | cons d rest =>
          obtain rfl : block = d := Option.some.inj (hlist.symm.trans hfree.1)
          refine ⟨rest, ⟨h.chain, h.ordered, h.home, h.queued, hfree.2, ?_, ?_⟩,
            ?_, ?_, ?_, ?_, fun d hd => hd, Or.inl List.mem_cons_self⟩
          · exact fun x hx => h.free_carved x (List.mem_cons_of_mem _ hx)
          · exact fun x hx => h.free_apart x (List.mem_cons_of_mem _ hx)
          · exact fun x hx => List.mem_cons_of_mem _ hx
          · exact (List.nodup_cons.mp hfree.nodup).1
          · exact h.free_apart block List.mem_cons_self
          · exact h.free_carved block List.mem_cons_self
  | none =>
      have hnil : free = [] := by
        have hfree := h.free_chain
        cases free with
        | nil => rfl
        | cons d rest =>
            rw [hlist] at hfree
            cases hfree.1
      subst hnil
      have hgrow : ∀ d, tm.Carved d → ∃ n, n < tm.carved + 1 ∧ d = .heap n := by
        rintro d ⟨n, hn, rfl⟩
        exact ⟨n, by omega, rfl⟩
      have hfresh : ¬ tm.Carved (.heap tm.carved) := by
        rintro ⟨n, hn, heq⟩
        cases heq
        omega
      refine ⟨[], ⟨h.chain, h.ordered, h.home, ?_, ?_, by simp, by simp⟩,
        by simp, by simp, ?_, ⟨tm.carved, by simp, rfl⟩, hgrow, Or.inr hfresh⟩
      · exact fun π d hd => (h.queued π d hd).imp_left fun hk => ⟨hgrow d hk.1, hk.2⟩
      · exact rfl
      · intro π hmem
        rcases h.queued π _ hmem with ⟨hk, _⟩ | ⟨p, heq, _⟩
        · exact hfresh hk
        · cases heq

/-- Putting a descriptor that is neither queued nor free on the free list. -/
theorem TimersOk.release (h : TimersOk pun tm q free) {d : DescRef N}
    (hcarved : tm.Carved d) (hfree : d ∉ free) (hq : ∀ π, d ∉ q π) :
    TimersOk pun (tm.release_mem d) q (d :: free) := by
  refine ⟨h.chain, h.ordered, h.home, h.queued, ?_, ?_, ?_⟩
  · refine ⟨rfl, ?_⟩
    simpa [Timers.release_mem] using
      h.free_chain.update_of_notMem (a := tm.procmemlist) hfree
  · intro x hx
    rcases List.mem_cons.mp hx with rfl | hx
    · exact hcarved
    · exact h.free_carved x hx
  · intro x hx
    rcases List.mem_cons.mp hx with rfl | hx
    · exact hq
    · exact h.free_apart x hx

/-- The start of an `After`: its descriptor is in no queue. -/
theorem Owned.After (h : Owned pun s q free) {p : Fin N} (hpc : s.pc p = .run)
    (when : Int) : Owned pun (s.After p when) q free := by
  unfold TimerState.After
  split
  · have hnot := h.not_queued (p := p) (by simp [hpc, TimerPc.inAfter])
    refine h.acts (p := p) (h.timers.fill hnot when p .after) ?_ ?_
      (fun r _ π hπ => ⟨π, hπ⟩) ?_ (fun d hd => hd)
    · refine ⟨fun π hπ => absurd hπ (hnot π), ?_, ?_, by simp, by simp [TimerPc.entering]⟩
      · intro d hd
        obtain rfl : DescRef.stack p = d := by simpa [TimerPc.holds] using hd
        refine ⟨?_, hnot, by simp [Timers.fill]⟩
        intro hfree
        exact (h.timers.free_carved _ hfree).ne_stack p rfl
      · intro d type heq
        obtain ⟨rfl, rfl⟩ : DescRef.stack p = d ∧ TimeoutType.after = type := by
          simpa using heq
        simp [Timers.fill]
    · intro r hr
      simp [hr]
    · intro r hr d hd
      have hheld := (h.processes r).held d hd
      -- only process `p` ever holds its own descriptor
      have hne : d ≠ .stack p := by
        rintro rfl
        cases hrpc : s.pc r with
        | link d' type =>
            obtain rfl : d' = .stack p := by simpa [hrpc, TimerPc.holds] using hd
            obtain ⟨_, hafter, halting⟩ := (h.processes r).inserts _ type hrpc
            cases type with
            | after => exact hr (by simpa using (hafter rfl).1.symm)
            | alting => exact (halting rfl).ne_stack p rfl
        | release time d' =>
            obtain rfl : d' = .stack p := by simpa [hrpc, TimerPc.holds] using hd
            exact ((h.processes r).releases time _ hrpc).2.ne_stack p rfl
        | _ => simp [hrpc, TimerPc.holds] at hd
      refine ⟨by simp [TimerPc.holds, hne.symm], hheld.1, hheld.2.1, ?_⟩
      simp [Timers.fill, hne]
  · exact h

/-- `insertInQueue` links in the descriptor that the process holds. -/
theorem Owned.link (h : Owned pun s q free) {p : Fin N} {desc : DescRef N}
    {type : TimeoutType} (hpc : s.pc p = .link desc type)
    {tm' : Timers N U} {first : Bool}
    (hins : s.tm.insertInQueue (pun p) desc = some (tm', first)) :
    Owned pun
      { s with
        tm := tm'
        pc := Function.update s.pc p
          (if first then .read desc type else afterInsert type) }
      (Function.update q (pun p) (s.tm.upTo (s.tm.time desc) (q (pun p)) ++
        desc :: s.tm.later (s.tm.time desc) (q (pun p)))) free := by
  obtain ⟨hfree, hnot, hproc⟩ := (h.processes p).held desc (by simp [hpc, TimerPc.holds])
  obtain ⟨htype, hafter, halting⟩ := (h.processes p).inserts desc type hpc
  obtain ⟨hreq, -⟩ := insertInQueue_spec (h.timers.chain (pun p))
    (h.timers.fuel (pun p)) (hnot (pun p)) hins
  have hmem : ∀ x, x ∈ s.tm.upTo (s.tm.time desc) (q (pun p)) ++
      desc :: s.tm.later (s.tm.time desc) (q (pun p)) →
      x = desc ∨ x ∈ q (pun p) := by
    intro x hx
    rw [List.mem_append, List.mem_cons] at hx
    have hsplit := s.tm.upTo_append_later (s.tm.time desc) (q (pun p))
    rcases hx with hx | rfl | hx
    · exact Or.inr (hsplit ▸ List.mem_append_left _ hx)
    · exact Or.inl rfl
    · exact Or.inr (hsplit ▸ List.mem_append_right _ hx)
  have hmem' : ∀ π x, x ∈ Function.update q (pun p)
      (s.tm.upTo (s.tm.time desc) (q (pun p)) ++
        desc :: s.tm.later (s.tm.time desc) (q (pun p))) π →
      x = desc ∨ x ∈ q π := by
    intro π x hx
    by_cases hπ : π = pun p
    · subst hπ
      exact hmem x (by simpa using hx)
    · exact Or.inr (by simpa [hπ] using hx)
  have hkind : (s.tm.Carved desc ∧ type = .alting) ∨
      (desc = .stack p ∧ type = .after) := by
    cases type with
    | after => exact Or.inr ⟨(hafter rfl).1, rfl⟩
    | alting => exact Or.inl ⟨halting rfl, rfl⟩
  refine h.acts (p := p) ?_ ?_ (fun r hr => by simp [hr]) ?_ ?_ ?_
  · refine h.timers.requeue hreq ((h.timers.ordered (pun p)).insert desc) ?_
    intro d hd hold
    obtain rfl : d = desc := (hmem d hd).resolve_right hold
    refine ⟨hfree, hnot, by rw [hproc], ?_⟩
    rcases hkind with ⟨hc, rfl⟩ | ⟨rfl, rfl⟩
    · exact Or.inl ⟨hc, htype⟩
    · exact Or.inr ⟨p, rfl, hproc, htype⟩
  · have hnothing : ∀ π, DescRef.stack p ∉ q π :=
      h.not_queued (by simp [hpc, TimerPc.inAfter])
    simp only [Function.update_self]
    refine ⟨?_, ?_, ?_, ?_, ?_⟩
    · intro π hπ
      rcases hkind with ⟨hc, rfl⟩ | ⟨rfl, rfl⟩
      · rcases hmem' π _ hπ with heq | hold
        · exact absurd heq.symm (hc.ne_stack p)
        · exact absurd hold (hnothing π)
      · refine ⟨?_, by simp [(hafter rfl).2]⟩
        cases first <;> rfl
    · cases first <;> cases type <;> simp [TimerPc.holds, afterInsert]
    · cases first <;> cases type <;> simp [afterInsert]
    · cases first <;> cases type <;> simp [afterInsert]
    · cases type with
      | after => simp [(hafter rfl).2]
      | alting => cases first <;> simp [TimerPc.entering, afterInsert]
  · intro r hr π hπ
    rcases hmem' π _ hπ with heq | hold
    · rcases hkind with ⟨hc, _⟩ | ⟨hs, _⟩
      · exact absurd heq.symm (hc.ne_stack r)
      · rw [hs] at heq
        exact absurd (by simpa using heq) hr
    · exact ⟨π, hold⟩
  · intro r hr d hd
    have hheld := (h.processes r).held d hd
    have hne : d ≠ desc := by
      rintro rfl
      exact hr (h.alone r p d hd (by simp [hpc, TimerPc.holds]))
    refine ⟨?_, hheld.1, fun π hπ => ?_, ?_⟩
    · cases first <;> cases type <;> simp [TimerPc.holds, afterInsert]
    · exact (hmem' π d hπ).elim hne (hheld.2.1 π)
    · simp [hreq.time_eq, hreq.proc_eq, hreq.type_eq]
  · intro d hd
    simpa [Timers.Carved, hreq.carved_eq] using hd

/-- `enable_timeout` fills in a newly allocated descriptor. -/
theorem Owned.fill (h : Owned pun s q free) {p : Fin N} {time : Int}
    (hpc : s.pc p = .fill time) :
    ∃ free', Owned pun
      { s with
        tm := s.tm.allocate_mem.2.fill s.tm.allocate_mem.1 time p .alting
        pc := Function.update s.pc p (.link s.tm.allocate_mem.1 .alting) }
      q free' := by
  obtain ⟨free', hok, hsub, hnf, hnq, hcarved, hgrow, hfresh⟩ := h.timers.allocate
  have hsame : s.tm.allocate_mem.2.time = s.tm.time ∧
      s.tm.allocate_mem.2.proc = s.tm.proc ∧
      s.tm.allocate_mem.2.type = s.tm.type := by
    unfold Timers.allocate_mem
    split <;> simp
  refine ⟨free', h.acts (p := p) (hok.fill hnq time p .alting) ?_
    (fun r hr => by simp [hr]) (fun r _ π hπ => ⟨π, hπ⟩) ?_ hgrow⟩
  · have hnothing := h.not_queued (p := p) (by simp [hpc, TimerPc.inAfter])
    simp only [Function.update_self]
    refine ⟨fun π hπ => absurd hπ (hnothing π), ?_, ?_, by simp, by simp [TimerPc.entering]⟩
    · intro d hd
      obtain rfl : s.tm.allocate_mem.1 = d := by simpa [TimerPc.holds] using hd
      exact ⟨hnf, hnq, by simp [Timers.fill]⟩
    · intro d type heq
      obtain ⟨rfl, rfl⟩ : s.tm.allocate_mem.1 = d ∧ TimeoutType.alting = type := by
        simpa using heq
      exact ⟨by simp [Timers.fill], by simp, fun _ => hcarved⟩
  · intro r hr d hd
    have hheld := (h.processes r).held d hd
    have hne : d ≠ s.tm.allocate_mem.1 := by
      rintro rfl
      rcases hfresh with hfree | hnc
      · exact hheld.1 hfree
      · -- a descriptor in somebody's hands is carved, or in its own frame
        cases hrpc : s.pc r with
        | link d' type =>
            obtain rfl : d' = _ := by simpa [hrpc, TimerPc.holds] using hd
            obtain ⟨_, hafter, halting⟩ := (h.processes r).inserts _ type hrpc
            cases type with
            | after => exact hcarved.ne_stack r (hafter rfl).1
            | alting => exact hnc (halting rfl)
        | release time d' =>
            obtain rfl : d' = _ := by simpa [hrpc, TimerPc.holds] using hd
            exact hnc ((h.processes r).releases time _ hrpc).2
        | _ => simp [hrpc, TimerPc.holds] at hd
    refine ⟨?_, fun hf => hheld.1 (hsub d hf), hheld.2.1, ?_⟩
    · simpa [TimerPc.holds] using hne.symm
    · simp [Timers.fill, hne, hsame]

/-- A descriptor is put back on the free list. -/
theorem Owned.release (h : Owned pun s q free) {p : Fin N} {time : Int}
    {desc : DescRef N} (hpc : s.pc p = .release time desc) :
    Owned pun
      { s with
        tm := s.tm.release_mem desc
        pc := Function.update s.pc p .run } q (desc :: free) := by
  obtain ⟨hfree, hnot, _⟩ := (h.processes p).held desc (by simp [hpc, TimerPc.holds])
  have hcarved := ((h.processes p).releases time desc hpc).2
  have hnothing := h.not_queued (p := p) (by simp [hpc, TimerPc.inAfter])
  refine h.acts (p := p) (h.timers.release hcarved hfree hnot) ?_
    (fun r hr => by simp [hr]) (fun r _ π hπ => ⟨π, hπ⟩) ?_ (fun d hd => hd)
  · simp only [Function.update_self]
    exact ProcessOk.idle hnothing rfl (by simp [TimerPc.entering])
  · intro r hr d hd
    have hheld := (h.processes r).held d hd
    have hne : d ≠ desc := by
      rintro rfl
      exact hr (h.alone r p d hd (by simp [hpc, TimerPc.holds]))
    exact ⟨by simp [TimerPc.holds], by simp [hne, hheld.1], hheld.2.1, rfl, rfl, rfl⟩

/-- `removeFromQueue` takes an entry out of the queue into the hands of the
process whose entry it is. -/
theorem Owned.remove (h : Owned pun s q free) {p : Fin N} {time : Int}
    (hpc : s.pc p = .remove time) {tm' : Timers N U} {c : DescRef N}
    {rest : List (DescRef N)}
    (hrem : s.tm.remaining time p (q (pun p)) = c :: rest)
    (hmatch : s.tm.time c = time ∧ s.tm.proc c = p)
    (hreq : Requeued s.tm tm' (pun p) (q (pun p))
      (s.tm.passed time p (q (pun p)) ++ rest)) :
    Owned pun
      { s with
        tm := tm'
        pc := Function.update s.pc p (.release time c) }
      (Function.update q (pun p) (s.tm.passed time p (q (pun p)) ++ rest)) free := by
  have hq := s.tm.passed_append_remaining time p (q (pun p))
  rw [hrem] at hq
  have hnd := hq.symm ▸ (h.timers.chain (pun p)).nodup
  have hsub : (s.tm.passed time p (q (pun p)) ++ rest).Sublist (q (pun p)) := by
    conv => rhs; rw [← hq]
    exact (List.sublist_cons_self c rest).append_left _
  have hmem' : ∀ π x, x ∈ Function.update q (pun p)
      (s.tm.passed time p (q (pun p)) ++ rest) π → x ∈ q π := by
    intro π x hx
    by_cases hπ : π = pun p
    · subst hπ
      exact hsub.subset (by simpa using hx)
    · simpa [hπ] using hx
  have hc : c ∈ q (pun p) := hq ▸ List.mem_append_right _ List.mem_cons_self
  have hout : ∀ π, c ∉ Function.update q (pun p)
      (s.tm.passed time p (q (pun p)) ++ rest) π := by
    intro π hcπ
    obtain rfl : π = pun p := h.timers.queue_unique (hmem' π c hcπ) hc
    rw [Function.update_self, List.mem_append] at hcπ
    obtain ⟨-, hcr, hdis⟩ := List.nodup_append.mp hnd
    rcases hcπ with hcp | hcr'
    · exact hdis c hcp c List.mem_cons_self rfl
    · exact (List.nodup_cons.mp hcr).1 hcr'
  have hnothing := h.not_queued (p := p) (by simp [hpc, TimerPc.inAfter])
  have hcarved : s.tm.Carved c := by
    rcases h.timers.queued (pun p) c hc with ⟨hk, _⟩ | ⟨r, rfl, hproc, _⟩
    · exact hk
    · rw [hproc] at hmatch
      exact absurd (hmatch.2 ▸ hc) (hnothing (pun p))
  have hgrow : ∀ d, s.tm.Carved d → tm'.Carved d := by
    intro d hd
    simpa [Timers.Carved, hreq.carved_eq] using hd
  refine h.acts (p := p) ?_ ?_ (fun r hr => by simp [hr])
    (fun r _ π hπ => ⟨π, hmem' π _ hπ⟩) ?_ hgrow
  · refine h.timers.requeue hreq ((h.timers.ordered (pun p)).sublist hsub) ?_
    intro d hd hold
    exact absurd (hsub.subset hd) hold
  · simp only [Function.update_self]
    refine ⟨fun π hπ => absurd (hmem' π _ hπ) (hnothing π), ?_, by simp, ?_,
      by simp [TimerPc.entering]⟩
    · intro d hd
      obtain rfl : c = d := by simpa [TimerPc.holds] using hd
      refine ⟨fun hf => h.timers.free_apart c hf (pun p) hc, hout, ?_⟩
      rw [hreq.proc_eq]
      exact hmatch.2
    · intro time' d heq
      obtain ⟨rfl, rfl⟩ : time = time' ∧ c = d := by simpa using heq
      exact ⟨by rw [hreq.time_eq]; exact hmatch.1, hgrow c hcarved⟩
  · intro r _ d hd
    have hheld := (h.processes r).held d hd
    have hne : c ≠ d := by
      rintro rfl
      exact hheld.2.1 (pun p) hc
    refine ⟨by simpa [TimerPc.holds] using hne, hheld.1,
      fun π hπ => hheld.2.1 π (hmem' π d hπ), ?_⟩
    simp [hreq.time_eq, hreq.proc_eq, hreq.type_eq]

/-- The interrupt handler takes the head entry off and readies its process. -/
theorem Owned.expire (h : Owned pun s q free) {π : Fin U} {head : DescRef N}
    (hhead : s.tm.head π = some head) :
    ∃ l, Owned pun
      { s with
        tm := s.tm.removeHead π head
        sched_state := match s.tm.type head with
          | .after => Function.update s.sched_state (s.tm.proc head) .ready
          | .alting => s.sched_state }
      (Function.update q π l) free := by
  have hchain := h.timers.chain π
  cases hq : q π with
  | nil =>
      rw [hq] at hchain
      rw [chain_nil.mp hchain] at hhead
      cases hhead
  | cons d rest =>
      rw [hq] at hchain
      obtain rfl : head = d := Option.some.inj (hhead.symm.trans hchain.1)
      have hnd := List.nodup_cons.mp hchain.nodup
      have hreq := removeHead_requeued hchain
      rw [← hq] at hreq
      have hmem' : ∀ ρ x, x ∈ Function.update q π rest ρ → x ∈ q ρ ∧ x ≠ head := by
        intro ρ x hx
        by_cases hρ : ρ = π
        · subst hρ
          rw [Function.update_self] at hx
          refine ⟨hq ▸ List.mem_cons_of_mem _ hx, ?_⟩
          rintro rfl
          exact hnd.1 hx
        · rw [Function.update_of_ne hρ] at hx
          refine ⟨hx, ?_⟩
          rintro rfl
          exact hρ (h.timers.queue_unique hx (hq ▸ List.mem_cons_self))
      have htimers : TimersOk pun (s.tm.removeHead π head)
          (Function.update q π rest) free := by
        refine h.timers.requeue hreq ?_ ?_
        · have hord := h.timers.ordered π
          rw [hq] at hord
          exact (List.pairwise_cons.mp hord).2
        · intro d hd hold
          exact absurd (hq ▸ List.mem_cons_of_mem _ hd) hold
      have hframe : ∀ r, ∀ d, (s.pc r).holds = some d →
          d ∉ free ∧ (∀ ρ, d ∉ Function.update q π rest ρ) := by
        intro r d hd
        have hheld := (h.processes r).held d hd
        exact ⟨hheld.1, fun ρ hρ => hheld.2.1 ρ (hmem' ρ d hρ).1⟩
      refine ⟨rest, ?_⟩
      rcases h.timers.queued π head (hq ▸ List.mem_cons_self) with
        ⟨_, htype⟩ | ⟨p, rfl, hproc, htype⟩
      · simp only [htype]
        refine ⟨htimers, fun r => ?_, h.alone⟩
        refine (h.processes r).frame (fun ρ hρ => ⟨ρ, (hmem' ρ _ hρ).1⟩) ?_
          (fun d hd => hd)
        exact fun d hd => ⟨(hframe r d hd).1, (hframe r d hd).2, rfl, rfl, rfl⟩
      · simp only [htype, hproc]
        have hafter := ((h.processes p).queued π (hq ▸ List.mem_cons_self)).1
        have hholds : (s.pc p).holds = none := by
          cases hpc : s.pc p <;> simp [hpc, TimerPc.inAfter, TimerPc.holds] at hafter ⊢
        refine h.acts (p := p) htimers ?_ ?_ ?_ ?_ (fun d hd => hd)
        · refine ProcessOk.idle (fun ρ hρ => (hmem' ρ _ hρ).2 rfl) hholds ?_
          simp
        · intro r hr
          simp [hr]
        · exact fun r _ ρ hρ => ⟨ρ, (hmem' ρ _ hρ).1⟩
        · intro r _ d hd
          exact ⟨by simp [hholds], (hframe r d hd).1, (hframe r d hd).2, rfl, rfl, rfl⟩

/-- What `removeFromQueue` does in a state of the invariant: it finds nothing,
or unlinks an entry of this process and time, or returns a later entry, which
stays queued. -/
theorem Owned.removes (h : Owned pun s q free) {p : Fin N} {time : Int}
    {r : Timers N U × Option (DescRef N)}
    (hr : s.tm.removeFromQueue (pun p) time p = some r) :
    (s.tm.Finds time p (q (pun p)) ∧ r = (s.tm, none)) ∨
    (∃ c rest, s.tm.Finds time p (q (pun p)) ∧
      s.tm.remaining time p (q (pun p)) = c :: rest ∧ r.2 = some c ∧
      (s.tm.time c = time ∧ s.tm.proc c = p) ∧
      Requeued s.tm r.1 (pun p) (q (pun p))
        (s.tm.passed time p (q (pun p)) ++ rest)) ∨
    (∃ c, ¬ s.tm.Finds time p (q (pun p)) ∧ r = (s.tm, some c) ∧
      c ∈ q (pun p)) := by
  have hord := h.timers.ordered (pun p)
  have hq := s.tm.passed_append_remaining time p (q (pun p))
  rcases removeFromQueue_some (h.timers.chain (pun p)) (h.timers.fuel (pun p)) hr
    with ⟨hnil, hnone, hsame⟩ | ⟨c, rest, hrem, hsome, hcase⟩
  · exact Or.inl ⟨hord.finds_iff.mpr (Or.inl hnil), Prod.ext hsame hnone⟩
  · rcases hcase with ⟨ht, hp, hreq⟩ | ⟨hmatch, hsame⟩
    · refine Or.inr (Or.inl ⟨c, rest, ?_, hrem, hsome, ⟨ht, hp⟩, hreq⟩)
      exact hord.finds_iff.mpr (Or.inr ⟨c, rest, hrem, ht, hp⟩)
    · refine Or.inr (Or.inr ⟨c, ?_, Prod.ext hsame hsome, ?_⟩)
      · rw [hord.finds_iff]
        rintro (hnil | ⟨c', rest', hrem', ht, hp⟩)
        · simp [hrem] at hnil
        · obtain ⟨rfl, rfl⟩ : c = c' ∧ rest = rest' := by simpa [hrem] using hrem'
          exact hmatch ⟨ht, hp⟩
      · exact hq ▸ List.mem_append_right _ (by simp [hrem])

/-- The next step of a call keeps the invariant. -/
theorem Owned.run (h : Owned pun s q free) {p : Fin N}
    (hC : DisableFinds pun s (.run p)) (hstep : s.run pun p = some t) :
    ∃ q' free', Owned pun t q' free' := by
  unfold TimerState.run at hstep
  cases hpc : s.pc p with
  | run =>
      rw [hpc] at hstep
      cases hstep
  | link desc type =>
      rw [hpc] at hstep
      obtain ⟨⟨tm', first⟩, hins, rfl⟩ := Option.map_eq_some_iff.mp hstep
      exact ⟨_, _, h.link hpc hins⟩
  | read desc type =>
      rw [hpc] at hstep
      obtain rfl := Option.some.inj hstep
      refine ⟨q, free, h.moves (p := p) rfl ?_ rfl (Function.update_eq_self p _).symm rfl⟩
      have hp := hpc ▸ h.processes p
      cases type with
      | after =>
          exact ⟨hp.queued, by simp [TimerPc.holds], by simp, by simp, hp.entering⟩
      | alting =>
          refine ProcessOk.idle (h.not_queued ?_) rfl (by simp [TimerPc.entering])
          simp [hpc, TimerPc.inAfter]
  | arm desc type now =>
      rw [hpc] at hstep
      obtain rfl := Option.some.inj hstep
      have hp := hpc ▸ h.processes p
      cases type with
      | after =>
          refine ⟨q, free, h.moves (p := p) rfl ?_ rfl (Function.update_eq_self p _).symm rfl⟩
          exact ⟨hp.queued, by simp [afterInsert, TimerPc.holds],
            by simp [afterInsert], by simp [afterInsert], hp.entering⟩
      | alting =>
          refine ⟨q, free, h.moves (p := p) rfl ?_ rfl (Function.update_eq_self p _).symm rfl⟩
          refine ProcessOk.idle (h.not_queued ?_) rfl (by simp [afterInsert, TimerPc.entering])
          simp [hpc, TimerPc.inAfter]
  | relinquish =>
      rw [hpc] at hstep
      have hp := hpc ▸ h.processes p
      by_cases hprep : s.sched_state p = .preparingToWait
      · obtain rfl : _ = t := by simpa [hprep] using hstep
        refine ⟨q, free, h.moves (p := p) rfl ?_ rfl rfl rfl⟩
        refine ⟨fun π hπ => ⟨rfl, by simp⟩, by simp [TimerPc.holds], by simp,
          by simp, by simp [TimerPc.entering]⟩
      · obtain rfl : _ = t := by simpa [hprep] using hstep
        have hready : s.sched_state p = .ready := by
          have := hp.entering rfl
          cases hst : s.sched_state p <;> simp_all
        refine ⟨q, free, h.moves (p := p) rfl ?_ rfl (Function.update_eq_self p _).symm rfl⟩
        refine ProcessOk.idle (fun π hπ => ?_) rfl (by simp [TimerPc.entering])
        exact (hp.queued π hπ).2 hready
  | wait =>
      rw [hpc] at hstep
      have hp := hpc ▸ h.processes p
      by_cases hready : s.sched_state p = .ready
      · obtain rfl : _ = t := by simpa [hready] using hstep
        refine ⟨q, free, h.moves (p := p) rfl ?_ rfl (Function.update_eq_self p _).symm rfl⟩
        refine ProcessOk.idle (fun π hπ => ?_) rfl (by simp [TimerPc.entering])
        exact (hp.queued π hπ).2 hready
      · simp [hready] at hstep
  | fill time =>
      rw [hpc] at hstep
      obtain rfl := Option.some.inj hstep
      obtain ⟨free', hfill⟩ := h.fill hpc
      exact ⟨q, free', hfill⟩
  | remove time =>
      rw [hpc] at hstep
      obtain ⟨r, hr, rfl⟩ := Option.map_eq_some_iff.mp hstep
      rcases h.removes hr with ⟨_, rfl⟩ | ⟨c, rest, _, hrem, hc, hmatch, hreq⟩ | ⟨c, hnot, _⟩
      · refine ⟨q, free, h.moves (p := p) rfl ?_ rfl (Function.update_eq_self p _).symm rfl⟩
        refine ProcessOk.idle (h.not_queued ?_) rfl (by simp [TimerPc.entering])
        simp [hpc, TimerPc.inAfter]
      · simp only [hc]
        exact ⟨_, _, h.remove hpc hrem hmatch hreq⟩
      · obtain ⟨l, hl, hfinds⟩ := hC time hpc
        rw [hl.unique (h.timers.chain (pun p))] at hfinds
        exact absurd hfinds hnot
  | release time desc =>
      rw [hpc] at hstep
      obtain rfl := Option.some.inj hstep
      exact ⟨_, _, h.release hpc⟩

/-- Every step whose search finds its entry keeps the invariant. -/
theorem Owned.step (h : Owned pun s q free) {act : TimerAct N U}
    (hC : DisableFinds pun s act) (hstep : s.step pun act = some t) :
    ∃ q' free', Owned pun t q' free' := by
  cases TimerState.step_cases hstep with
  | @After p when hpc henabled => exact ⟨q, free, h.After hpc when⟩
  | @enable_timeout p time hpc henabled =>
      unfold TimerState.enable_timeout
      split
      · exact ⟨q, free, h⟩
      · refine ⟨q, free, h.moves (p := p) rfl ?_ rfl (Function.update_eq_self p _).symm rfl⟩
        refine ProcessOk.idle (h.not_queued ?_) rfl (by simp [TimerPc.entering])
        simp [hpc, TimerPc.inAfter]
  | @disable_timeout p time hpc henabled =>
      refine ⟨q, free, h.moves (p := p) rfl ?_ rfl (Function.update_eq_self p _).symm rfl⟩
      refine ProcessOk.idle (h.not_queued ?_) rfl (by simp [TimerPc.entering])
      simp [hpc, TimerPc.inAfter]
  | run hmay hrun => exact h.run hC hrun
  | tick => exact ⟨q, free, h.timers, h.processes, h.alone⟩
  | interrupt henabled hpending => exact ⟨q, free, h.timers, h.processes, h.alone⟩
  | handle hnow =>
      unfold TimerState.handle
      split
      · exact ⟨q, free, h.timers, h.processes, h.alone⟩
      next head hhead =>
        split
        · obtain ⟨l, hl⟩ := h.expire hhead
          exact ⟨_, _, hl⟩
        · exact ⟨q, free, h.timers, h.processes, h.alone⟩

/-- A search that goes past its entry leaves a process about to release a
descriptor that is still queued. -/
theorem Owned.not_safe_of_not_finds (h : Owned pun s q free)
    {act : TimerAct N U} (hC : ¬ DisableFinds pun s act)
    (hstep : s.step pun act = some t) : ¬ TimeoutsSafe t := by
  cases act with
  | run p =>
      simp only [DisableFinds, not_forall] at hC
      obtain ⟨time, hpc, hno⟩ := hC
      obtain ⟨-, hrun⟩ := Option.ite_none_right_eq_some.mp hstep
      unfold TimerState.run at hrun
      rw [hpc] at hrun
      obtain ⟨r, hr, rfl⟩ := Option.map_eq_some_iff.mp hrun
      have hfinds : ¬ s.tm.Finds time p (q (pun p)) := by
        intro hf
        exact hno ⟨_, h.timers.chain (pun p), hf⟩
      obtain ⟨hf, _⟩ | ⟨c, rest, hf, _⟩ | ⟨c, _, rfl, hc⟩ := h.removes hr
      · exact absurd hf hfinds
      · exact absurd hf hfinds
      · intro hsafe
        obtain ⟨q', free', hchain, _, _, _, hrelease⟩ := hsafe
        have hout := (hrelease p time c (by simp)).1 (pun p)
        rw [(hchain (pun p)).unique (h.timers.chain (pun p))] at hout
        exact hout hc
  | _ => exact absurd trivial hC

end Invariant

/-- **When no queued descriptor is released.**  Through a run of timeouts on
any number of processors the descriptors stay where they belong exactly when
the search of every `disable_timeout` finds its own entry, or finds no later
entry at which it would stop instead. -/
theorem timeouts_safe_iff_disable_finds (proc : Fin N)
    (acts : List (TimerAct N U))
    (hrun : (exec (TimerState.step pun) (TimerState.init N U proc) acts).isSome) :
    Throughout (TimerState.step pun) TimeoutsSafe (TimerState.init N U proc) acts ↔
      Along (TimerState.step pun) (DisableFinds pun) (TimerState.init N U proc)
        acts := by
  obtain ⟨t, ht⟩ := Option.isSome_iff_exists.mp hrun
  refine throughout_iff_along (I := fun s => ∃ q free, Owned pun s q free)
    ?_ ?_ ?_ ht ⟨_, _, owned_init proc⟩
  · rintro s act t ⟨q, free, h⟩ hC hstep
    exact h.step hC hstep
  · rintro s ⟨q, free, h⟩
    exact h.safe
  · rintro s act t ⟨q, free, h⟩ hC hstep
    exact h.not_safe_of_not_finds hC hstep

/-- An `enable_timeout` and the `disable_timeout` that takes its entry out. -/
theorem timeouts_safe_one_guard :
    Throughout (TimerState.step fun _ : Fin 1 => (0 : Fin 1)) TimeoutsSafe
      (TimerState.init 1 1 0)
      [.enable_timeout 0 10, .run 0, .run 0, .run 0, .run 0,
        .disable_timeout 0 10, .run 0, .run 0] := by
  refine (timeouts_safe_iff_disable_finds 0 _ (by decide)).mpr ?_
  refine ⟨trivial, ?_⟩
  rintro _ ⟨⟩
  refine ⟨by rintro _ ⟨⟩, ?_⟩
  rintro _ ⟨⟩
  refine ⟨by rintro _ ⟨⟩, ?_⟩
  rintro _ ⟨⟩
  refine ⟨by rintro _ ⟨⟩, ?_⟩
  rintro _ ⟨⟩
  refine ⟨by rintro _ ⟨⟩, ?_⟩
  rintro _ ⟨⟩
  refine ⟨trivial, ?_⟩
  rintro _ ⟨⟩
  refine ⟨?_, ?_⟩
  · rintro _ ⟨⟩
    exact ⟨[.heap 0], ⟨rfl, rfl⟩, Or.inl ⟨.heap 0, by simp, rfl, rfl⟩⟩
  rintro _ ⟨⟩
  refine ⟨by rintro _ ⟨⟩, ?_⟩
  rintro _ ⟨⟩
  trivial

/-- Process 0 waits in `After` until 100; process 1 has a timer guard for 50,
which the interrupt handler takes off at 60.  The `disable_timeout` of that
guard then comes to the descriptor in the frame of process 0. -/
def stopAtLaterEntry : List (TimerAct 2 1) :=
  [.After 0 100, .run 0, .run 0, .run 0, .run 0,
    .enable_timeout 1 50, .run 1, .run 1, .run 1, .run 1,
    .tick 60, .interrupt 0, .handle 0, .handle 0,
    .disable_timeout 1 50, .run 1]

/-- The stack descriptor of an `After` comes to be released while queued. -/
theorem after_descriptor_released :
    ¬ ∀ acts : List (TimerAct 2 1),
      (exec (TimerState.step fun _ => 0) (TimerState.init 2 1 0) acts).isSome →
      Throughout (TimerState.step fun _ => 0) TimeoutsSafe
        (TimerState.init 2 1 0) acts := by
  intro hall
  obtain ⟨q, free, _, _, _, _, hrelease⟩ :=
    (hall stopAtLaterEntry (by decide)).last rfl
  exact (hrelease 1 50 (.stack 0) rfl).2.2.2.2 0 rfl

end Cxp
