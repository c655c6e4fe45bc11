import Cxp.ProcessorBoot

/-!
# What the initialisation establishes (`hardware.c`, `sched.c`)

`Post` says of each statement what holds from its execution on, and `Inv` what
all steps keep: the signal numbers are each given out once, the tables agree
with them, and a mask passes no signal but one of a processor that has enabled
interrupts.  `reach π ρ` tells whether the masks on `π` may pass those of `ρ`.
-/

namespace Cxp

open Run Hardware

namespace BootStmt

variable {U : Nat} {s : BootStmt U}

/-- `enable` comes last. -/
theorem rank_lt_enable (hs : s ≠ .enable) : s.rank < (BootStmt.enable : BootStmt U).rank := by
  cases s with
  | enable => exact absurd rfl hs
  | fetch_add i | intr i | pun i | signal_no i | sigdelset i | sigaction i =>
      cases i <;> simp only [rank, Intr.number] <;> omega
  | init_timer t => cases t <;> simp only [rank, TimerType.intr, Intr.number] <;> omega
  | make_process ρ | current ρ | pthread_create ρ =>
      have := ρ.isLt
      simp only [rank]
      omega
  | _ =>
      simp only [rank]
      omega

end BootStmt

namespace ProcessorBoot

variable {U : Nat}

/-- What a statement that has been executed has established. -/
def Post (rt : RtSignals) (π : Fin U) (s : BootStmt U) (m : Hardware U) : Prop :=
  match s with
  | .begin => m.created π = true
  | .setspecific => m.cpu_key π = some π
  | .thread_id => m.thread_id π = some π
  | .sigaddset => ∀ k, rt.SIGRTMIN ≤ k → k ≤ rt.SIGRTMAX → m.sigmask π k = false →
      ∃ i, m.signo π i = some k
  | .fetch_add i => ∃ k, m.signo π i = some k
  | .intr i => ∀ k, m.signo π i = some k → (m.interrupt (m.index k)).intr = i
  | .pun i => ∀ k, m.signo π i = some k → (m.interrupt (m.index k)).pun = π.val
  | .signal_no i => m.signo π i = some (m.signal_no π i)
  | .sigdelset i => ∀ k, m.signo π i = some k → rt.Valid k = true → m.sigmask π k = false
  | .sigaction i => ∀ k, m.signo π i = some k → rt.Valid k = true → m.action k = true
  | .init_timer t => m.plotz ≠ none ∨ (m.timer π t).isSome = true
  | .set_current => m.current π = true
  | .make_process ρ => m.idle ρ = blocked
  | .current ρ => m.current ρ = true
  | .pthread_create ρ => m.created ρ = true
  | .spin => m.barrier ≤ 0
  | _ => True

/-- The mask passes no signals but those of processors `P` that have enabled interrupts. -/
def Passes (rt : RtSignals) (m : ProcessorBoot U) (P : Fin U → Prop) (mask : SignoMask) : Prop :=
  ∀ k, rt.SIGRTMIN ≤ k → k ≤ rt.SIGRTMAX → mask k = false →
    ∃ ρ i, P ρ ∧ m.shared.signo ρ i = some k ∧ .enable ∉ m.code ρ

/-- What the variables of the signal numbers have in common. -/
structure Numbered (rt : RtSignals) (m : Hardware U) : Prop where
  base : m.SIGBASE = rt.SIGRTMIN
  given : ∀ π i k, m.signo π i = some k → rt.SIGRTMIN ≤ k ∧ k < m.next_signo
  distinct : ∀ π i ρ j k, m.signo π i = some k → m.signo ρ j = some k → π = ρ ∧ i = j
  defines : ∀ π i k, m.signo π i = some k → BootStmt.Defines π i
  count : m.next_signo = rt.SIGRTMIN +
    (Finset.univ.filter fun x : Fin U × Intr => (m.signo x.1 x.2).isSome).card

/-- What all steps keep. -/
structure Inv (rt : RtSignals) (reach : Fin U → Fin U → Prop) (m : ProcessorBoot U) : Prop where
  annotated : Threads.Annotated BootStmt.program (Post rt) m
  numbered : Numbered rt m.shared
  /-- the call of `define_handler` has taken its number -/
  taken : ∀ π i k, m.shared.signo π i = some k → .fetch_add i ∉ m.code π
  barrier : m.shared.barrier = m.awaited .fetch_sub
  blocked : ∀ π, m.shared.created π = true → .enable ∈ m.code π → m.shared.mask π = blocked
  first : ∀ π, π.val = 0 → m.shared.created π = true
  mask : ∀ π, .enable ∉ m.code π → Passes rt m (reach π) (m.shared.mask π)
  saved : ∀ π, ∀ mask ∈ m.shared.saved π, Passes rt m (reach π) mask
  timer : ∀ π t k, m.shared.timer π t = some k →
    m.shared.signo π t.intr = some k ∧ rt.Valid k = true
  pending : ∀ e ∈ m.shared.pending, m.shared.signo e.pun e.intr = some e.signo ∧
    rt.Valid e.signo = true ∧ (e.target = none ∨ e.target = some e.pun)
  handled : ∀ h ∈ m.shared.handled, h.called = handle_interrupt h.sent.intr ∧ reach h.on h.sent.pun
  ready : m.shared.handled ≠ [] → ∀ π, .fetch_sub ∉ m.code π
  killed : m.shared.killed = false
  plotz : ∀ what, m.shared.plotz = some what → what = "send_interrupt not user interrupt" ∨
    ∃ π i k, m.shared.signo π i = some k ∧ rt.Valid k = false

section Statements

variable {rt : RtSignals} {reach : Fin U → Fin U → Prop} {m n : ProcessorBoot U} {π ρ : Fin U}
  {s r : BootStmt U} {rest : List (BootStmt U)} {t : Hardware U} {i j : Intr}

/-- Where a statement has been executed, so have those that come before it. -/
theorem Inv.executed (h : Inv rt reach m) (hs : s ∉ m.code π) (hr : BootStmt.Belongs π r)
    (hb : BootStmt.Belongs π s) (hlt : r.rank < s.rank) :
    Threads.Executed BootStmt.program m π r :=
  (BootStmt.before hr hb hlt).executed_of (BootStmt.program_nodup π) (h.annotated.code π)
    ⟨BootStmt.mem_program.mpr hb, hs⟩

/-- And what they have established holds. -/
theorem Inv.post (h : Inv rt reach m) (hs : s ∉ m.code π) (hr : BootStmt.Belongs π r)
    (hb : BootStmt.Belongs π s) (hlt : r.rank < s.rank) : Post rt π r m.shared :=
  h.annotated.post π r (h.executed hs hr hb hlt)

theorem Inv.belongs (h : Inv rt reach m) (hcode : m.code π = s :: rest) :
    BootStmt.Belongs π s :=
  BootStmt.mem_program.mp ((h.annotated.code π).subset (by simp [hcode]))

/-- What the statements before the next one have established holds. -/
theorem Inv.post_head (h : Inv rt reach m) (hcode : m.code π = s :: rest)
    (hr : BootStmt.Belongs π r) (hlt : r.rank < s.rank) : Post rt π r m.shared :=
  h.annotated.post π r ((BootStmt.before hr (h.belongs hcode) hlt).executed
    (BootStmt.program_nodup π) (h.annotated.code π) hcode)

theorem Inv.executed_head (h : Inv rt reach m) (hcode : m.code π = s :: rest)
    (hr : BootStmt.Belongs π r) (hlt : r.rank < s.rank) : r ∉ m.code π :=
  ((BootStmt.before hr (h.belongs hcode) hlt).executed
    (BootStmt.program_nodup π) (h.annotated.code π) hcode).2

/-- **All are initialised where one has passed the barrier.** -/
theorem Inv.arrived (h : Inv rt reach m) (hspin : .spin ∉ m.code π) (ρ : Fin U) :
    .fetch_sub ∉ m.code ρ := by
  have hbarrier : m.shared.barrier ≤ 0 :=
    h.annotated.post π .spin ⟨BootStmt.mem_program.mpr trivial, hspin⟩
  have hawaited := h.barrier
  exact Threads.arrived (by omega) ρ

theorem Inv.spun (h : Inv rt reach m) (henable : .enable ∉ m.code π) : .spin ∉ m.code π :=
  (h.executed (r := .spin) henable trivial trivial (by simp [BootStmt.rank])).2

/-- What was established before the barrier holds where one has passed it. -/
theorem Inv.established (h : Inv rt reach m) (henable : .enable ∉ m.code π)
    (hr : BootStmt.Belongs ρ r) (hlt : r.rank < 3 * U + 62) : Post rt ρ r m.shared :=
  h.post (h.arrived (h.spun henable) ρ) hr trivial (by simpa [BootStmt.rank] using hlt)

/-- What comes after the next statement is left. -/
theorem Inv.still (h : Inv rt reach m) (hcode : m.code π = s :: rest)
    (hr : BootStmt.Belongs π r) (hlt : s.rank < r.rank) : r ∈ m.code π := by
  by_contra hleft
  exact (h.executed hleft (h.belongs hcode) hr hlt).2 (by simp [hcode])

theorem Inv.enable_still (h : Inv rt reach m) (hcode : m.code π = s :: rest)
    (hs : s ≠ .enable) : .enable ∈ m.code π :=
  h.still hcode trivial (BootStmt.rank_lt_enable hs)

/-- A thread that executes statements has been created. -/
theorem Inv.created_head (h : Inv rt reach m) (hcode : m.code π = s :: rest)
    (hs : s ≠ .begin) : m.shared.created π = true := by
  by_cases hπ : π.val = 0
  · exact h.first π hπ
  · exact h.post_head (r := .begin) hcode hπ (by cases s <;> simp_all [BootStmt.rank])

/-- The next statement is not one that has been executed. -/
theorem head_ne (hcode : m.code π = s :: rest)
    (hr : Threads.Executed BootStmt.program m ρ r) (hs : r = s) : ρ ≠ π := by
  intro hρ
  subst hρ hs
  exact hr.2 (by simp [hcode])

theorem Inv.execute (h : Inv rt reach m) (hcode : m.code π = s :: rest)
    (hexec : Hardware.execute rt π s m.shared = some t) :
    m.shared.ended = false ∧ Executes rt π m.shared s t := by
  have hb := h.belongs hcode
  have hplotz : m.shared.ended = false := by
    unfold Hardware.execute at hexec
    split at hexec
    next => cases hexec
    next hended => simpa using hended
  refine execute_cases ?_ ?_ ?_ hexec
  · intro hbegin hset
    exact h.post_head (r := .setspecific) hcode trivial (by cases s <;> simp_all [BootStmt.rank])
  · intro hs
    subst hs
    exact hb
  · intro hs
    subst hs
    have hpost := h.post_head (r := .init_timer .elapsed) hcode (fun _ => hb)
      (by simp [BootStmt.rank, TimerType.intr, Intr.number])
    refine hpost.resolve_left fun hne => hne ?_
    simp only [ended, Bool.or_eq_false_iff, Option.isSome_eq_false_iff,
      Option.isNone_iff_eq_none] at hplotz
    exact hplotz.1

theorem Inv.local_signo (h : Inv rt reach m) (hcode : m.code π = s :: rest)
    (hb : BootStmt.Defines π i) (hlt : 10 * i.number + 10 < s.rank) :
    m.shared.signo π i = some (m.shared.local_signo π i) := by
  obtain ⟨k, hk⟩ := h.post_head (r := .fetch_add i) hcode hb hlt
  simp [Hardware.local_signo, hk]

/-- **The statement establishes what it is for.** -/
theorem Inv.own_post (h : Inv rt reach m) (hcode : m.code π = s :: rest)
    (hexec : Executes rt π m.shared s t) : Post rt π s t := by
  have hb := h.belongs hcode
  cases hexec with
  | begin hcreated => exact hcreated
  | setspecific | thread_id | set_current | current => exact Function.update_self _ _ _
  | sigaddset =>
      intro k hlo hhi hk
      simp [hlo, hhi] at hk
  | fetch_add i => exact ⟨m.shared.next_signo, by simp [put]⟩
  | intr i | pun i =>
      intro k hk
      have hk' : m.shared.signo π i = some k := hk
      simp [setInterrupt, index, Hardware.local_signo, hk']
  | signal_no i =>
      have hlocal := h.local_signo hcode hb (by simp [BootStmt.rank])
      simpa [Post, put] using hlocal
  | sigdelset i hvalid =>
      intro k hk hk'
      have hk'' : m.shared.signo π i = some k := hk
      simp [put, Hardware.local_signo, hk'']
  | sigdelset_fails i hvalid | sigaction_fails i hvalid =>
      intro k hk hk'
      rw [Hardware.local_signo, hk, Option.getD_some, hk'] at hvalid
      cases hvalid
  | sigaction i hvalid =>
      intro k hk hk'
      have hk'' : m.shared.signo π i = some k := hk
      simp [Hardware.local_signo, hk'']
  | init_timer t hvalid => exact Or.inr (by simp [put])
  | init_timer_fails t hvalid => exact Or.inl (by simp [plotzWith])
  | make_process ρ =>
      have hmask := h.blocked π (h.first π hb.1) (h.enable_still hcode (by simp))
      simpa [Post] using hmask
  | spin hbarrier => exact hbarrier
  | pthread_create ρ => simp [Post, setMask]
  | set_timer_repeating | pthread_sigmask | fetch_sub | setcontext | enable => trivial

/-- A number that is given out is not that of the next call. -/
theorem Inv.signo_put (h : Inv rt reach m) (hcode : m.code π = .fetch_add i :: rest) {k : Nat}
    (hk : m.shared.signo ρ j = some k) (x : Option Nat) :
    put m.shared.signo π i x ρ j = some k := by
  have hpair : ¬ (ρ = π ∧ j = i) := by
    intro hsame
    obtain ⟨hρ, hj⟩ := hsame
    subst hρ hj
    exact h.taken ρ j k hk (by simp [hcode])
  simpa [put, hpair] using hk

/-- What another call of `define_handler` writes is at another place. -/
theorem Inv.index_ne (h : Inv rt reach m) (hcode : m.code π = s :: rest)
    (hb : BootStmt.Defines π i) (hlt : 10 * i.number + 10 < s.rank) {k : Nat}
    (hk : m.shared.signo ρ j = some k) (hne : ¬ (ρ = π ∧ j = i)) :
    m.shared.index k ≠ m.shared.index (m.shared.local_signo π i) := by
  have hlocal := h.local_signo hcode hb hlt
  intro heq
  have hk' := h.numbered.given ρ j k hk
  have hlocal' := h.numbered.given π i _ hlocal
  have hbase := h.numbered.base
  unfold index at heq
  have hsame : k = m.shared.local_signo π i := by omega
  rw [hsame] at hk
  exact hne (h.numbered.distinct ρ j π i _ hk hlocal)

/-- **No statement takes back what others have established.** -/
theorem Inv.keeps_post (h : Inv rt reach m) (hcode : m.code π = s :: rest)
    (hexec : Executes rt π m.shared s t) (hr : Threads.Executed BootStmt.program m ρ r)
    (hpost : Post rt ρ r m.shared) : Post rt ρ r t := by
  have hne := head_ne hcode hr
  have hbr := BootStmt.mem_program.mp hr.1
  have hb := h.belongs hcode
  cases hexec with
  | begin | sigdelset_fails | sigaction_fails | spin => exact hpost
  | set_timer_repeating | pthread_sigmask | setcontext | enable =>
      cases r <;> exact hpost
  | setspecific =>
      cases r with
      | setspecific => exact (Function.update_of_ne (hne rfl) _ _).trans hpost
      | _ => exact hpost
  | thread_id =>
      cases r with
      | thread_id => exact (Function.update_of_ne (hne rfl) _ _).trans hpost
      | _ => exact hpost
  | sigaddset =>
      cases r with
      | sigaddset =>
          intro k hlo hhi hk
          exact hpost k hlo hhi (by simpa [Function.update_of_ne (hne rfl)] using hk)
      | sigdelset i =>
          intro k hk hk'
          have hρ : ρ ≠ π := by
            intro hρ
            subst hρ
            exact (h.executed (r := .sigaddset) hr.2 trivial hbr (by simp [BootStmt.rank])).2
              (by simp [hcode])
          simpa [Function.update_of_ne hρ] using hpost k hk hk'
      | _ => exact hpost
  | fetch_add i =>
      have hpair {j : Intr} (hdef : BootStmt.Defines ρ j) (hlt : 10 * j.number + 10 < r.rank) :
          ¬ (ρ = π ∧ j = i) := by
        intro hsame
        obtain ⟨hρ, hj⟩ := hsame
        subst hρ hj
        exact (h.executed (r := .fetch_add j) hr.2 hdef hbr hlt).2 (by simp [hcode])
      cases r with
      | sigaddset =>
          intro k hlo hhi hk
          obtain ⟨j, hj⟩ := hpost k hlo hhi hk
          exact ⟨j, h.signo_put hcode hj _⟩
      | fetch_add j =>
          obtain ⟨k, hk⟩ := hpost
          exact ⟨k, h.signo_put hcode hk _⟩
      | intr j | pun j | sigdelset j | sigaction j =>
          intro k hk
          exact hpost k (by simpa [put, hpair hbr (by simp [BootStmt.rank])] using hk)
      | signal_no j =>
          have hpost' : m.shared.signo ρ j = some (m.shared.signal_no ρ j) := hpost
          exact h.signo_put hcode hpost' _
      | _ => exact hpost
  | intr i =>
      cases r with
      | intr j =>
          intro k hk
          have hk' : m.shared.signo ρ j = some k := hk
          have hpair : ¬ (ρ = π ∧ j = i) := by
            intro hsame
            obtain ⟨hρ, hj⟩ := hsame
            exact hne (by rw [hj]) hρ
          have hindex := h.index_ne hcode hb (by simp [BootStmt.rank]) hk' hpair
          have hpost' := hpost k hk
          change ((Function.update m.shared.interrupt _ _) (m.shared.index k)).intr = j
          rw [Function.update_of_ne hindex]
          exact hpost'
      | pun j =>
          intro k hk
          have hpost' := hpost k hk
          change ((Function.update m.shared.interrupt _ _) (m.shared.index k)).pun = ρ.val
          by_cases hindex : m.shared.index k = m.shared.index (m.shared.local_signo π i)
          · rw [hindex, Function.update_self, ← hindex]
            exact hpost'
          · rw [Function.update_of_ne hindex]
            exact hpost'
      | _ => exact hpost
  | pun i =>
      cases r with
      | pun j =>
          intro k hk
          have hk' : m.shared.signo ρ j = some k := hk
          have hpair : ¬ (ρ = π ∧ j = i) := by
            intro hsame
            obtain ⟨hρ, hj⟩ := hsame
            exact hne (by rw [hj]) hρ
          have hindex := h.index_ne hcode hb (by simp [BootStmt.rank]) hk' hpair
          have hpost' := hpost k hk
          change ((Function.update m.shared.interrupt _ _) (m.shared.index k)).pun = ρ.val
          rw [Function.update_of_ne hindex]
          exact hpost'
      | intr j =>
          intro k hk
          have hpost' := hpost k hk
          change ((Function.update m.shared.interrupt _ _) (m.shared.index k)).intr = j
          by_cases hindex : m.shared.index k = m.shared.index (m.shared.local_signo π i)
          · rw [hindex, Function.update_self, ← hindex]
            exact hpost'
          · rw [Function.update_of_ne hindex]
            exact hpost'
      | _ => exact hpost
  | signal_no i =>
      cases r with
      | signal_no j =>
          have hpair : ¬ (ρ = π ∧ j = i) := by
            intro hsame
            obtain ⟨hρ, hj⟩ := hsame
            exact hne (by rw [hj]) hρ
          simpa [Post, put, hpair] using hpost
      | _ => exact hpost
  | sigdelset i =>
      have hlocal := h.local_signo (i := i) hcode hb (by simp [BootStmt.rank])
      cases r with
      | sigaddset =>
          intro k hlo hhi hk
          by_cases hpair : ρ = π ∧ k = m.shared.local_signo π i
          · obtain ⟨rfl, rfl⟩ := hpair
            exact ⟨i, hlocal⟩
          · exact hpost k hlo hhi (by simpa [put, hpair] using hk)
      | sigdelset j =>
          intro k hk hvalid
          by_cases hpair : ρ = π ∧ k = m.shared.local_signo π i
          · simp [put, hpair]
          · simpa [put, hpair] using hpost k hk hvalid
      | _ => exact hpost
  | sigaction i =>
      cases r with
      | sigaction j =>
          intro k hk hvalid
          by_cases hsame : k = m.shared.local_signo π i
          · simp [hsame]
          · simpa [Function.update_of_ne hsame] using hpost k hk hvalid
      | _ => exact hpost
  | init_timer t =>
      cases r with
      | init_timer t' =>
          refine hpost.imp_right fun hsome => ?_
          by_cases hpair : ρ = π ∧ t' = t
          · simp [put, hpair]
          · simpa [put, hpair] using hsome
      | _ => exact hpost
  | init_timer_fails t =>
      cases r with
      | init_timer t' => exact Or.inl (by simp [plotzWith])
      | _ => exact hpost
  | set_current =>
      cases r with
      | set_current => exact (Function.update_of_ne (hne rfl) _ _).trans hpost
      | current τ =>
          by_cases hτ : τ = π
          · exact hτ ▸ Function.update_self _ _ _
          · exact (Function.update_of_ne hτ _ _).trans hpost
      | _ => exact hpost
  | current τ =>
      cases r with
      | set_current =>
          by_cases hτ : ρ = τ
          · exact hτ ▸ Function.update_self _ _ _
          · exact (Function.update_of_ne hτ _ _).trans hpost
      | current τ' =>
          by_cases hτ : τ' = τ
          · exact hτ ▸ Function.update_self _ _ _
          · exact (Function.update_of_ne hτ _ _).trans hpost
      | _ => exact hpost
  | make_process τ =>
      cases r with
      | make_process τ' =>
          have hτ : τ' ≠ τ := by
            intro hτ
            exact hne (by rw [hτ]) (Fin.ext (hbr.1.trans hb.1.symm))
          exact (Function.update_of_ne hτ _ _).trans hpost
      | _ => exact hpost
  | pthread_create τ =>
      have hcreated (σ : Fin U) (hσ : m.shared.created σ = true) :
          Function.update m.shared.created τ true σ = true := by
        by_cases hτ : σ = τ
        · exact hτ ▸ Function.update_self _ _ _
        · exact (Function.update_of_ne hτ _ _).trans hσ
      cases r with
      | begin => exact hcreated ρ hpost
      | pthread_create σ => exact hcreated σ hpost
      | _ => exact hpost
  | fetch_sub =>
      cases r with
      | spin =>
          have hbarrier : m.shared.barrier ≤ 0 := hpost
          change m.shared.barrier - 1 ≤ 0
          omega
      | _ => exact hpost

/-- What is left changes by the statement alone. -/
theorem mem_update (hcode : m.code π = s :: rest) (hne : r ≠ s) :
    r ∈ Function.update m.code π rest ρ ↔ r ∈ m.code ρ := by
  by_cases hρ : ρ = π
  · subst hρ
    simp [hcode, hne]
  · simp [hρ]

theorem notMem_update (hcode : m.code π = s :: rest) (h : r ∉ m.code ρ) :
    r ∉ Function.update m.code π rest ρ := by
  by_cases hρ : ρ = π
  · subst hρ
    simp_all
  · simpa [hρ] using h

/-- A mask that passes no more does so where more numbers are given out and more threads
have enabled interrupts. -/
theorem Passes.mono {P : Fin U → Prop} {mask : SignoMask} (h : Passes rt m P mask)
    (hsigno : ∀ ρ i k, m.shared.signo ρ i = some k → n.shared.signo ρ i = some k)
    (hcode : ∀ ρ, .enable ∉ m.code ρ → .enable ∉ n.code ρ) : Passes rt n P mask := by
  intro k hlo hhi hk
  obtain ⟨ρ, i, hP, hsome, henable⟩ := h k hlo hhi hk
  exact ⟨ρ, i, hP, hsigno ρ i k hsome, hcode ρ henable⟩

theorem passes_blocked {P : Fin U → Prop} : Passes rt m P Hardware.blocked := by
  intro k _ _ hk
  cases hk

/-- What no statement but one touches. -/
structure Plain (m t : Hardware U) : Prop where
  base : t.SIGBASE = m.SIGBASE
  next_signo : t.next_signo = m.next_signo
  signo : t.signo = m.signo
  saved : t.saved = m.saved
  pending : t.pending = m.pending
  handled : t.handled = m.handled
  killed : t.killed = m.killed

theorem Numbered.plain (h : Numbered rt m.shared) (hplain : Plain m.shared t) :
    Numbered rt t := by
  obtain ⟨hbase, hnext, hsigno, -⟩ := hplain
  obtain ⟨base, given, distinct, defines, count⟩ := h
  rw [← hsigno] at given distinct defines count
  rw [← hnext] at given count
  exact ⟨hbase.trans base, given, distinct, defines, count⟩

/-- A statement that touches no signal numbers, given what it does to the masks. -/
theorem Inv.plain (h : Inv rt reach m) (hcode : m.code π = s :: rest)
    (hexec : Executes rt π m.shared s t) (hplain : Plain m.shared t)
    (hbarrier : t.barrier =
      (⟨Function.update m.code π rest, t⟩ : ProcessorBoot U).awaited .fetch_sub)
    (hcreated : ∀ ρ, m.shared.created ρ = true → t.created ρ = true)
    (hblocked : ∀ ρ, t.created ρ = true → .enable ∈ Function.update m.code π rest ρ →
      t.mask ρ = Hardware.blocked)
    (hmask : ∀ ρ, .enable ∉ Function.update m.code π rest ρ →
      Passes rt ⟨Function.update m.code π rest, t⟩ (reach ρ) (t.mask ρ))
    (htimer : ∀ ρ x k, t.timer ρ x = some k →
      m.shared.signo ρ x.intr = some k ∧ rt.Valid k = true)
    (hplotz : ∀ what, t.plotz = some what → what = "send_interrupt not user interrupt" ∨
      ∃ ρ i k, m.shared.signo ρ i = some k ∧ rt.Valid k = false) :
    Inv rt reach ⟨Function.update m.code π rest, t⟩ where
  annotated := h.annotated.run (BootStmt.program_nodup π) hcode
    (fun _ => h.own_post hcode hexec) (fun _ _ => h.keeps_post hcode hexec)
  numbered := h.numbered.plain hplain
  taken ρ i k hk := by
    simp only [hplain.signo] at hk
    exact notMem_update hcode (h.taken ρ i k hk)
  barrier := hbarrier
  blocked := hblocked
  first ρ hρ := hcreated ρ (h.first ρ hρ)
  mask := hmask
  saved ρ mask hmem := by
    simp only [hplain.saved] at hmem
    refine (h.saved ρ mask hmem).mono ?_ fun _ => notMem_update hcode
    intro τ i k hk
    simpa only [hplain.signo] using hk
  timer ρ x k hk := by
    simpa only [hplain.signo] using htimer ρ x k hk
  pending e he := by
    simp only [hplain.pending] at he
    simpa only [hplain.signo] using h.pending e he
  handled x hx := by
    simp only [hplain.handled] at hx
    exact h.handled x hx
  ready hne ρ := by
    simp only [hplain.handled] at hne
    exact notMem_update hcode (h.ready hne ρ)
  killed := hplain.killed.trans h.killed
  plotz what hwhat := by
    simpa only [hplain.signo] using hplotz what hwhat

/-- A statement that is not at the barrier. -/
theorem Inv.awaits (h : Inv rt reach m) (hcode : m.code π = s :: rest) (hsub : s ≠ .fetch_sub)
    (hbarrier : t.barrier = m.shared.barrier) :
    t.barrier = (⟨Function.update m.code π rest, t⟩ : ProcessorBoot U).awaited .fetch_sub := by
  rw [Threads.awaited_other hcode hsub.symm, hbarrier]
  exact h.barrier

/-- A statement that touches neither these nor the masks. -/
theorem Inv.plainer (h : Inv rt reach m) (hcode : m.code π = s :: rest)
    (hexec : Executes rt π m.shared s t) (hplain : Plain m.shared t) (henable : s ≠ .enable)
    (hbarrier : t.barrier =
      (⟨Function.update m.code π rest, t⟩ : ProcessorBoot U).awaited .fetch_sub)
    (hcreated : t.created = m.shared.created)
    (hmask : t.mask = m.shared.mask)
    (htimer : ∀ ρ x k, t.timer ρ x = some k →
      m.shared.signo ρ x.intr = some k ∧ rt.Valid k = true)
    (hplotz : ∀ what, t.plotz = some what → what = "send_interrupt not user interrupt" ∨
      ∃ ρ i k, m.shared.signo ρ i = some k ∧ rt.Valid k = false) :
    Inv rt reach ⟨Function.update m.code π rest, t⟩ := by
  refine h.plain hcode hexec hplain hbarrier ?_ ?_ ?_ htimer hplotz
  · intro ρ hρ
    rwa [hcreated]
  · intro ρ hρ hmem
    rw [hcreated] at hρ
    rw [hmask]
    exact h.blocked ρ hρ ((mem_update hcode henable.symm).mp hmem)
  · intro ρ hmem
    rw [mem_update hcode henable.symm] at hmem
    simp only [hmask]
    refine (h.mask ρ hmem).mono ?_ fun _ => notMem_update hcode
    intro τ i k hk
    simpa only [hplain.signo] using hk

/-- What a statement does to the mask of thread `τ`. -/
theorem Inv.setMask_masks (h : Inv rt reach m) (hcode : m.code π = s :: rest) {τ : Fin U}
    {mask : SignoMask} (ht : t.mask = Function.update m.shared.mask τ mask)
    (hcreated : ∀ ρ, ρ ≠ τ → t.created ρ = true → m.shared.created ρ = true)
    (hsigno : t.signo = m.shared.signo) (hs : s = .enable → τ = π)
    (hblocked : .enable ∈ Function.update m.code π rest τ → mask = Hardware.blocked)
    (hpasses : .enable ∉ Function.update m.code π rest τ →
      Passes rt ⟨Function.update m.code π rest, t⟩ (reach τ) mask) :
    (∀ ρ, t.created ρ = true → .enable ∈ Function.update m.code π rest ρ →
      t.mask ρ = Hardware.blocked) ∧
    (∀ ρ, .enable ∉ Function.update m.code π rest ρ →
      Passes rt ⟨Function.update m.code π rest, t⟩ (reach ρ) (t.mask ρ)) := by
  have hmem {ρ : Fin U} (hρ : ρ ≠ τ) :
      .enable ∈ Function.update m.code π rest ρ ↔ .enable ∈ m.code ρ := by
    by_cases hsame : ρ = π
    · exact mem_update hcode fun henable => hρ (hsame.trans (hs henable.symm).symm)
    · simp [hsame]
  constructor
  · intro ρ hρ hleft
    rw [ht]
    by_cases hτ : ρ = τ
    · subst hτ
      rw [Function.update_self]
      exact hblocked hleft
    · rw [Function.update_of_ne hτ]
      exact h.blocked ρ (hcreated ρ hτ hρ) ((hmem hτ).mp hleft)
  · intro ρ hleft
    rw [ht]
    by_cases hτ : ρ = τ
    · subst hτ
      rw [Function.update_self]
      exact hpasses hleft
    · rw [Function.update_of_ne hτ]
      refine (h.mask ρ ((hmem hτ).not.mp hleft)).mono ?_ fun _ => notMem_update hcode
      intro σ i k hk
      simpa only [hsigno] using hk

/-- The next number is given out. -/
theorem Numbered.fetch_add {hw : Hardware U} (h : Numbered rt hw) (hnone : hw.signo π i = none)
    (hdef : BootStmt.Defines π i) :
    Numbered rt { hw with
      signo := put hw.signo π i (some hw.next_signo)
      next_signo := hw.next_signo + 1 } := by
  have hput {ρ : Fin U} {j : Intr} {k : Nat}
      (hk : put hw.signo π i (some hw.next_signo) ρ j = some k) :
      ρ = π ∧ j = i ∧ k = hw.next_signo ∨ hw.signo ρ j = some k := by
    by_cases hpair : ρ = π ∧ j = i
    · simp only [put, hpair, and_self, if_true, Option.some.injEq] at hk
      exact Or.inl ⟨hpair.1, hpair.2, hk.symm⟩
    · simp only [put, hpair, if_false] at hk
      exact Or.inr hk
  have hcount := h.count
  constructor
  · exact h.base
  · intro ρ j k hk
    obtain ⟨-, -, rfl⟩ | hk := hput hk
    · simp only
      omega
    · have := h.given ρ j k hk
      simp only
      omega
  · intro ρ j τ j' k hk hk'
    obtain ⟨hρ, hj, hnext⟩ | hk := hput hk
    · obtain ⟨hτ, hj', -⟩ | hk' := hput hk'
      · exact ⟨hρ.trans hτ.symm, hj.trans hj'.symm⟩
      · have := h.given τ j' k hk'
        omega
    · obtain ⟨hτ, hj', hnext⟩ | hk' := hput hk'
      · have := h.given ρ j k hk
        omega
      · exact h.distinct ρ j τ j' k hk hk'
  · intro ρ j k hk
    obtain ⟨rfl, rfl, -⟩ | hk := hput hk
    · exact hdef
    · exact h.defines ρ j k hk
  · have hinsert : (Finset.univ.filter fun x : Fin U × Intr =>
          (put hw.signo π i (some hw.next_signo) x.1 x.2).isSome) =
        insert (π, i) (Finset.univ.filter fun x : Fin U × Intr => (hw.signo x.1 x.2).isSome) := by
      ext ⟨ρ, j⟩
      simp only [Finset.mem_filter, Finset.mem_univ, true_and, Finset.mem_insert, Prod.mk.injEq]
      by_cases hpair : ρ = π ∧ j = i
      · simp [put, hpair]
      · simp [put, hpair]
    simp only [hinsert]
    rw [Finset.card_insert_of_notMem (by simp [hnone]), hcount]
    omega

/-- **A statement of the initialisation keeps the invariant.** -/
theorem Inv.statement (h : Inv rt reach m) (hrefl : reach π π) (hcode : m.code π = s :: rest)
    (hexec : Hardware.execute rt π s m.shared = some t) :
    Inv rt reach ⟨Function.update m.code π rest, t⟩ := by
  obtain ⟨hended, hexec⟩ := h.execute hcode hexec
  have hb := h.belongs hcode
  cases hexec with
  | begin | setspecific | thread_id | sigaddset | intr | pun | signal_no | sigdelset
  | sigdelset_fails | sigaction | sigaction_fails | set_timer_repeating | set_current
  | make_process | current | spin =>
      exact h.plainer hcode (by constructor <;> assumption) (by constructor <;> rfl) (by simp)
        (h.awaits hcode (by simp) rfl) rfl rfl h.timer h.plotz
  | fetch_add i =>
      have hnone : m.shared.signo π i = none := by
        cases hk : m.shared.signo π i with
        | none => rfl
        | some k => exact absurd (by simp [hcode]) (h.taken π i k hk)
      have hgrows (ρ j k) (hk : m.shared.signo ρ j = some k) :
          put m.shared.signo π i (some m.shared.next_signo) ρ j = some k :=
        h.signo_put hcode hk _
      have hpasses {P : Fin U → Prop} {mask : SignoMask} (hmask : Passes rt m P mask) :
          Passes rt ⟨Function.update m.code π rest, { m.shared with
            signo := put m.shared.signo π i (some m.shared.next_signo)
            next_signo := m.shared.next_signo + 1 }⟩ P mask :=
        hmask.mono hgrows fun _ => notMem_update hcode
      exact {
        annotated := h.annotated.run (BootStmt.program_nodup π) hcode
          (fun _ => h.own_post hcode (.fetch_add i)) (fun _ _ => h.keeps_post hcode (.fetch_add i))
        numbered := h.numbered.fetch_add hnone hb
        taken := by
          intro ρ j k hk
          by_cases hpair : ρ = π ∧ j = i
          · obtain ⟨rfl, rfl⟩ := hpair
            have hnodup := (h.annotated.code ρ).sublist.nodup (BootStmt.program_nodup ρ)
            rw [hcode] at hnodup
            simpa using (List.nodup_cons.mp hnodup).1
          · exact notMem_update hcode (h.taken ρ j k (by simpa [put, hpair] using hk))
        barrier := h.awaits hcode (by simp) rfl
        blocked := fun ρ hρ hmem => h.blocked ρ hρ ((mem_update hcode (by simp)).mp hmem)
        first := h.first
        mask := fun ρ hmem => hpasses (h.mask ρ ((mem_update hcode (by simp)).not.mp hmem))
        saved := fun ρ mask hmem => hpasses (h.saved ρ mask hmem)
        timer := fun ρ x k hk => (h.timer ρ x k hk).imp_left (hgrows ρ x.intr k)
        pending := fun e he => (h.pending e he).imp_left (hgrows e.pun e.intr e.signo)
        handled := h.handled
        ready := fun hne ρ => notMem_update hcode (h.ready hne ρ)
        killed := h.killed
        plotz := by
          intro what hwhat
          refine (h.plotz what hwhat).imp_right fun ⟨ρ, j, k, hk, hvalid⟩ => ?_
          exact ⟨ρ, j, k, hgrows ρ j k hk, hvalid⟩ }
  | init_timer x hvalid =>
      refine h.plainer hcode (.init_timer x hvalid) (by constructor <;> rfl) (by simp)
        (h.awaits hcode (by simp) rfl) rfl rfl ?_ h.plotz
      intro ρ y k hk
      by_cases hpair : ρ = π ∧ y = x
      · obtain ⟨rfl, rfl⟩ := hpair
        simp only [put, and_self, if_true, Option.some.injEq] at hk
        subst hk
        exact ⟨h.post_head (r := .signal_no y.intr) hcode hb (by simp [BootStmt.rank]), hvalid⟩
      · exact h.timer ρ y k (by simpa [put, hpair] using hk)
  | init_timer_fails x hvalid =>
      refine h.plainer hcode (.init_timer_fails x hvalid) (by constructor <;> rfl) (by simp)
        (h.awaits hcode (by simp) rfl) rfl rfl h.timer ?_
      intro _ _
      exact Or.inr ⟨π, x.intr, _,
        h.post_head (r := .signal_no x.intr) hcode hb (by simp [BootStmt.rank]), hvalid⟩
  | fetch_sub =>
      have hnodup := (h.annotated.code π).sublist.nodup (BootStmt.program_nodup π)
      have hawaited := Threads.awaited_arrive
        (t := { m.shared with barrier := m.shared.barrier - 1 }) hcode hnodup
      refine h.plainer hcode .fetch_sub (by constructor <;> rfl) (by simp) ?_ rfl rfl h.timer
        h.plotz
      exact sub_eq_of_eq_add ((h.barrier.trans (congrArg Nat.cast hawaited)).trans
        (Nat.cast_succ _))
  | pthread_sigmask =>
      have hstill := h.enable_still hcode (by simp)
      obtain ⟨hblocked, hmask⟩ := h.setMask_masks
        (t := m.shared.setMask π fun k => m.shared.mask π k || m.shared.sigmask π k) hcode rfl
        (fun _ _ hρ => hρ) rfl (fun _ => rfl)
        (fun _ => by
          funext k
          simp [h.blocked π (h.created_head hcode (by simp)) hstill, Hardware.blocked])
        (fun hleft => absurd ((mem_update hcode (by simp)).mpr hstill) hleft)
      exact h.plain hcode .pthread_sigmask (by constructor <;> rfl) (h.awaits hcode (by simp) rfl)
        (fun _ hρ => hρ) hblocked hmask h.timer h.plotz
  | pthread_create τ =>
      have hblocked : m.shared.mask π = Hardware.blocked :=
        h.blocked π (h.first π hb.1) (h.enable_still hcode (by simp))
      obtain ⟨hblocked, hmask⟩ := h.setMask_masks
        (t := { m.shared with created := Function.update m.shared.created τ true }.setMask τ
          (m.shared.mask π)) hcode rfl (fun ρ hρ hc => by simpa [setMask, hρ] using hc) rfl
        (by simp) (fun _ => hblocked) (fun _ => hblocked ▸ passes_blocked)
      refine h.plain hcode (.pthread_create τ) (by constructor <;> rfl)
        (h.awaits hcode (by simp) rfl) (fun ρ hρ => ?_) hblocked hmask h.timer h.plotz
      by_cases hτ : ρ = τ
      · exact hτ ▸ Function.update_self _ _ _
      · exact (Function.update_of_ne hτ _ _).trans hρ
  | setcontext =>
      have hidle : m.shared.idle π = Hardware.blocked := by
        have hspin := h.executed_head (r := .spin) hcode trivial (by simp [BootStmt.rank])
        have hlt := π.isLt
        exact h.post (r := .make_process π) (h.arrived hspin ⟨0, by omega⟩) ⟨rfl, hb⟩ trivial
          (by simp only [BootStmt.rank]; omega)
      obtain ⟨hblocked, hmask⟩ := h.setMask_masks (t := m.shared.setMask π (m.shared.idle π))
        hcode rfl (fun _ _ hρ => hρ) rfl (fun _ => rfl) (fun _ => hidle)
        (fun _ => hidle ▸ passes_blocked)
      exact h.plain hcode .setcontext (by constructor <;> rfl) (h.awaits hcode (by simp) rfl)
        (fun _ hρ => hρ) hblocked hmask h.timer h.plotz
  | enable =>
      have hnodup := (h.annotated.code π).sublist.nodup (BootStmt.program_nodup π)
      rw [hcode] at hnodup
      have hrest : .enable ∉ Function.update m.code π rest π := by
        simpa using (List.nodup_cons.mp hnodup).1
      obtain ⟨hblocked, hmask⟩ := h.setMask_masks (t := m.shared.setMask π (m.shared.sigmask π))
        hcode rfl (fun _ _ hρ => hρ) rfl (fun _ => rfl) (fun hleft => absurd hleft hrest) (by
          intro _ k hlo hhi hk
          obtain ⟨i, hi⟩ := h.post_head (r := .sigaddset) hcode trivial (by simp [BootStmt.rank])
            k hlo hhi hk
          exact ⟨π, i, hrefl, hi, hrest⟩)
      exact h.plain hcode .enable (by constructor <;> rfl) (h.awaits hcode (by simp) rfl)
        (fun _ hρ => hρ) hblocked hmask h.timer h.plotz

end Statements

section Processes

variable {rt : RtSignals} {reach : Fin U → Fin U → Prop} {m n : ProcessorBoot U} {π ρ : Fin U}
  {i : Intr}

theorem Up.enabled (h : m.Up π) : .enable ∉ m.code π := by
  rw [show m.code π = [] from h]
  simp

theorem process_cases {hw : Option (Hardware U)} (h : m.process π hw = some n) :
    m.Up π ∧ m.shared.ended = false ∧ ∃ t, hw = some t ∧ n = m.withShared t := by
  unfold process at h
  split at h
  next hup =>
    obtain ⟨t, ht, rfl⟩ := Option.map_eq_some_iff.mp h
    simp only [Bool.and_eq_true, decide_eq_true_eq, Bool.not_eq_true'] at hup
    exact ⟨hup.1, hup.2, t, ht, rfl⟩
  next => cases h

/-- Who has enabled interrupts knows its processor. -/
theorem Inv.cpu_key (h : Inv rt reach m) (henable : .enable ∉ m.code π) :
    m.shared.cpu_key π = some π :=
  h.post (r := .setspecific) henable trivial trivial (by simp [BootStmt.rank])

theorem Inv.getcpu_eq (h : Inv rt reach m) (henable : .enable ∉ m.code π)
    (f : Fin U → Hardware U) : m.shared.getcpu π f = f π := by
  simp [getcpu, h.cpu_key henable]

/-- The statements of a call of `define_handler` come before the barrier. -/
theorem Inv.defined (h : Inv rt reach m) (henable : .enable ∉ m.code π)
    (hi : BootStmt.Defines ρ i) :
    m.shared.signo ρ i = some (m.shared.signal_no ρ i) ∧
      (m.shared.interrupt (m.shared.index (m.shared.signal_no ρ i))).intr = i ∧
      (m.shared.interrupt (m.shared.index (m.shared.signal_no ρ i))).pun = ρ.val ∧
      (rt.Valid (m.shared.signal_no ρ i) = true →
        m.shared.action (m.shared.signal_no ρ i) = true ∧
        m.shared.sigmask ρ (m.shared.signal_no ρ i) = false) := by
  have hlt : 10 * i.number + 16 < 3 * U + 62 := by
    cases i <;> simp only [Intr.number] <;> omega
  have hsigno : m.shared.signo ρ i = some (m.shared.signal_no ρ i) :=
    h.established (r := .signal_no i) henable hi (by simp only [BootStmt.rank]; omega)
  refine ⟨hsigno, ?_, ?_, fun hvalid => ⟨?_, ?_⟩⟩
  · exact h.established (r := .intr i) henable hi (by simp only [BootStmt.rank]; omega) _ hsigno
  · exact h.established (r := .pun i) henable hi (by simp only [BootStmt.rank]; omega) _ hsigno
  · exact h.established (r := .sigaction i) henable hi (by simp only [BootStmt.rank]; omega) _
      hsigno hvalid
  · exact h.established (r := .sigdelset i) henable hi (by simp only [BootStmt.rank]; omega) _
      hsigno hvalid

/-- Who has enabled interrupts has a current process. -/
theorem Inv.current (h : Inv rt reach m) (henable : .enable ∉ m.code π) (ρ : Fin U) :
    m.shared.current ρ = true := by
  have hlt := ρ.isLt
  by_cases hρ : ρ.val = 0
  · exact h.established (r := .set_current) henable hρ (by simp only [BootStmt.rank]; omega)
  · have hpost : Post rt ⟨0, by omega⟩ (.current ρ) m.shared :=
      h.established henable ⟨rfl, hρ⟩ (by simp only [BootStmt.rank]; omega)
    exact hpost

/-- **What goes on after the initialisation** leaves what it has established. -/
theorem Inv.share (h : Inv rt reach m) {mask : Fin U → SignoMask} {saved : Fin U → List SignoMask}
    {running : Fin U → TimerType → Bool} {pending : List (Sent U)} {handled : List (Handled U)}
    {plotz : Option String} (hended : m.shared.ended = false)
    (hblocked : ∀ π, m.shared.created π = true → .enable ∈ m.code π → mask π = Hardware.blocked)
    (hmask : ∀ π, .enable ∉ m.code π → Passes rt m (reach π) (mask π))
    (hsaved : ∀ π, ∀ x ∈ saved π, Passes rt m (reach π) x)
    (hpending : ∀ e ∈ pending, m.shared.signo e.pun e.intr = some e.signo ∧
      rt.Valid e.signo = true ∧ (e.target = none ∨ e.target = some e.pun))
    (hhandled : ∀ x ∈ handled, x.called = handle_interrupt x.sent.intr ∧ reach x.on x.sent.pun)
    (hready : handled ≠ [] → ∀ π, .fetch_sub ∉ m.code π)
    (hplotz : ∀ what, plotz = some what → what = "send_interrupt not user interrupt" ∨
      ∃ π i k, m.shared.signo π i = some k ∧ rt.Valid k = false) :
    Inv rt reach (m.withShared { m.shared with
      mask := mask
      saved := saved
      running := running
      pending := pending
      handled := handled
      plotz := plotz }) where
  annotated := by
    apply h.annotated.share
    intro j r hr hpost
    cases r with
    | init_timer t =>
        simp only [ended, Bool.or_eq_false_iff, Option.isSome_eq_false_iff,
          Option.isNone_iff_eq_none] at hended
        exact Or.inr (hpost.resolve_left fun hne => hne hended.1)
    | _ => exact hpost
  numbered :=
    ⟨h.numbered.base, h.numbered.given, h.numbered.distinct, h.numbered.defines, h.numbered.count⟩
  taken := h.taken
  barrier := h.barrier
  blocked := hblocked
  first := h.first
  mask := hmask
  saved := hsaved
  timer := h.timer
  pending := hpending
  handled := hhandled
  ready := hready
  killed := h.killed
  plotz := hplotz

/-- A processor that has enabled interrupts changes its mask. -/
theorem Inv.remask (h : Inv rt reach m) (hended : m.shared.ended = false)
    (henable : .enable ∉ m.code π) {mask : SignoMask} (hmask : Passes rt m (reach π) mask) :
    Inv rt reach (m.withShared (m.shared.setMask π mask)) := by
  refine h.share hended ?_ ?_ h.saved h.pending h.handled h.ready h.plotz
  · intro ρ hρ hleft
    have hne : ρ ≠ π := fun hρπ => henable (hρπ ▸ hleft)
    exact (Function.update_of_ne hne _ _).trans (h.blocked ρ hρ hleft)
  · intro ρ hρ
    by_cases hne : ρ = π
    · subst hne
      simpa using hmask
    · simpa [Function.update_of_ne hne] using h.mask ρ hρ

/-- A context is saved. -/
theorem Inv.save (h : Inv rt reach m) (hended : m.shared.ended = false) {mask : SignoMask}
    (hmask : Passes rt m (reach ρ) mask) :
    Inv rt reach (m.withShared { m.shared with
      saved := Function.update m.shared.saved ρ (mask :: m.shared.saved ρ) }) := by
  refine h.share hended h.blocked h.mask ?_ h.pending h.handled h.ready h.plotz
  intro τ x hx
  by_cases hτ : τ = ρ
  · subst hτ
    rw [Function.update_self] at hx
    obtain rfl | hx := List.mem_cons.mp hx
    · exact hmask
    · exact h.saved τ x hx
  · rw [Function.update_of_ne hτ] at hx
    exact h.saved τ x hx

/-- A signal is sent whose number has been given out. -/
theorem Inv.pthread_kill (h : Inv rt reach m) (hended : m.shared.ended = false) {e : Sent U}
    {what : String} (hsigno : m.shared.signo e.pun e.intr = some e.signo)
    (htarget : e.target = none ∨ e.target = some e.pun) :
    Inv rt reach (m.withShared (m.shared.pthread_kill rt e what)) := by
  unfold Hardware.pthread_kill
  split
  next hvalid =>
    refine h.share hended h.blocked h.mask h.saved ?_ h.handled h.ready h.plotz
    intro x hx
    obtain rfl | hx := List.mem_cons.mp hx
    · exact ⟨hsigno, hvalid, htarget⟩
    · exact h.pending x hx
  next hvalid =>
    refine h.share hended h.blocked h.mask h.saved h.pending h.handled h.ready ?_
    intro _ _
    exact Or.inr ⟨e.pun, e.intr, e.signo, hsigno, by simpa using hvalid⟩

theorem Inv.send_interprocessor_interrupt (h : Inv rt reach m) (hended : m.shared.ended = false)
    (henable : .enable ∉ m.code π) :
    Inv rt reach (m.withShared (m.shared.send_interprocessor_interrupt rt ρ)) := by
  have hthread : m.shared.thread_id ρ = some ρ :=
    h.established (r := .thread_id) henable trivial (by simp [BootStmt.rank])
  have hdefines : BootStmt.Defines ρ .interproc := by simp [BootStmt.Defines]
  have hdefined := h.defined henable hdefines
  simp only [Hardware.send_interprocessor_interrupt, hthread]
  exact h.pthread_kill hended hdefined.1 (Or.inr rfl)

theorem Inv.send_interrupt (h : Inv rt reach m) (hended : m.shared.ended = false)
    (henable : .enable ∉ m.code π) :
    Inv rt reach (m.withShared (m.shared.send_interrupt rt π i)) := by
  unfold Hardware.send_interrupt
  split
  next =>
    refine h.share hended h.blocked h.mask h.saved h.pending h.handled h.ready ?_
    intro what hwhat
    exact Or.inl (Option.some.inj hwhat).symm
  next huser =>
    have hi : BootStmt.Defines π i := by
      intro hi
      subst hi
      exact absurd (by decide) huser
    rw [h.getcpu_eq henable]
    exact h.pthread_kill hended (h.defined henable hi).1 (Or.inr rfl)

theorem Inv.set_timer_single (h : Inv rt reach m) (hended : m.shared.ended = false)
    (henable : .enable ∉ m.code π) :
    Inv rt reach (m.withShared (m.shared.set_timer_single π)) := by
  have htimer : m.shared.plotz ≠ none ∨ (m.shared.timer π .timeout).isSome = true :=
    h.established (r := .init_timer .timeout) henable (by simp [BootStmt.Belongs, BootStmt.Defines,
      TimerType.intr]) (by simp only [BootStmt.rank, TimerType.intr, Intr.number]; omega)
  have hplotz : m.shared.plotz = none := by simp_all [ended]
  obtain ⟨k, hk⟩ := Option.isSome_iff_exists.mp (htimer.resolve_left fun hne => hne hplotz)
  simp only [Hardware.set_timer_single, h.getcpu_eq henable, hk]
  exact h.share hended h.blocked h.mask h.saved h.pending h.handled h.ready h.plotz

theorem Inv.expire (h : Inv rt reach m) (hended : m.shared.ended = false) {x : TimerType}
    {t : Hardware U} (hexpire : m.shared.expire π x = some t) : Inv rt reach (m.withShared t) := by
  unfold Hardware.expire at hexpire
  split at hexpire
  next k hrunning hk =>
    cases hexpire
    refine h.share hended h.blocked h.mask h.saved ?_ h.handled h.ready h.plotz
    intro e he
    split at he
    next => exact h.pending e he
    next =>
      obtain rfl | he := List.mem_cons.mp he
      · exact ⟨(h.timer π x k hk).1, (h.timer π x k hk).2, Or.inl rfl⟩
      · exact h.pending e he
  next => cases hexpire

/-- **A signal that is taken** is one of a processor that the mask may pass, which is the
one it was sent for, and its entries are as they should be. -/
theorem Inv.taken_by (h : Inv rt reach m) {e : Sent U} (htakes : m.Takes π e) :
    reach π e.pun ∧ .enable ∉ m.code π ∧ m.shared.action e.signo = true ∧
      (m.shared.interrupt (m.shared.index e.signo)).intr = e.intr := by
  obtain ⟨hpending, -, hcreated, hmask⟩ := htakes
  obtain ⟨hsigno, hvalid, -⟩ := h.pending e hpending
  have henable : .enable ∉ m.code π := by
    intro hleft
    rw [h.blocked π hcreated hleft] at hmask
    cases hmask
  have hvalid' := hvalid
  simp only [RtSignals.Valid, Bool.and_eq_true, decide_eq_true_eq] at hvalid'
  obtain ⟨ρ, i, hreach, hi, henable'⟩ := h.mask π henable e.signo
    (h.numbered.given _ _ _ hsigno).1 hvalid'.2 hmask
  obtain ⟨rfl, rfl⟩ := h.numbered.distinct _ _ _ _ _ hi hsigno
  have hdefined := h.defined henable' (h.numbered.defines _ _ _ hsigno)
  have hsame : m.shared.signal_no e.pun e.intr = e.signo :=
    Option.some.inj (hdefined.1.symm.trans hsigno)
  rw [hsame] at hdefined
  exact ⟨hreach, henable, (hdefined.2.2.2 hvalid).1, hdefined.2.1⟩

theorem Inv.handle_signal (h : Inv rt reach m) (hended : m.shared.ended = false) {e : Sent U}
    (htakes : m.Takes π e) : Inv rt reach (m.withShared (m.shared.handle_signal π e)) := by
  obtain ⟨hreach, henable, haction, hintr⟩ := h.taken_by htakes
  simp only [Hardware.handle_signal, haction, if_true, getcpu, h.cpu_key henable,
    h.current henable π]
  refine h.share hended ?_ ?_ ?_ ?_ ?_ ?_ h.plotz
  · intro ρ hρ hleft
    have hne : ρ ≠ π := fun hρπ => henable (hρπ ▸ hleft)
    exact (Function.update_of_ne hne _ _).trans (h.blocked ρ hρ hleft)
  · intro ρ hρ
    change Passes rt m (reach ρ) (Function.update m.shared.mask π Hardware.blocked ρ)
    by_cases hne : ρ = π
    · subst hne
      rw [Function.update_self]
      exact passes_blocked
    · rw [Function.update_of_ne hne]
      exact h.mask ρ hρ
  · intro ρ x hx
    by_cases hne : ρ = π
    · subst hne
      rw [Function.update_self] at hx
      obtain rfl | hx := List.mem_cons.mp hx
      · exact h.mask ρ henable
      · exact h.saved ρ x hx
    · rw [Function.update_of_ne hne] at hx
      exact h.saved ρ x hx
  · exact fun x hx => h.pending x (List.mem_of_mem_erase hx)
  · intro x hx
    obtain rfl | hx := List.mem_cons.mp hx
    · exact ⟨by rw [hintr], hreach⟩
    · exact h.handled x hx
  · exact fun _ => h.arrived (h.spun henable)

/-- A process is built for a processor whose masks may pass what those of its parent's may,
or while all signals are blocked. -/
def Builds (reach : Fin U → Fin U → Prop) (m : ProcessorBoot U) : BootAct U → Prop
  | .build_context π ρ => (∀ τ, reach π τ → reach ρ τ) ∨ m.shared.mask π = Hardware.blocked
  | _ => True

/-- **Every step keeps the invariant.** -/
theorem Inv.step (h : Inv rt reach m) (hrefl : ∀ π, reach π π) {act : BootAct U}
    (hbuilds : Builds reach m act) (hstep : ProcessorBoot.step rt m act = some n) :
    Inv rt reach n := by
  cases act with
  | run π =>
      obtain ⟨s, rest, t, hcode, hexec, rfl⟩ := Threads.run_cases hstep
      exact h.statement (hrefl π) hcode hexec
  | disable π =>
      obtain ⟨hup, hended, t, ht, rfl⟩ := process_cases hstep
      cases ht
      exact h.remask hended hup.enabled passes_blocked
  | enable π =>
      obtain ⟨hup, hended, t, ht, rfl⟩ := process_cases hstep
      cases ht
      rw [h.getcpu_eq hup.enabled]
      refine h.remask hended hup.enabled fun k hlo hhi hk => ?_
      obtain ⟨i, hi⟩ := h.established (r := .sigaddset) hup.enabled trivial
        (by simp [BootStmt.rank]) k hlo hhi hk
      exact ⟨π, i, hrefl π, hi, hup.enabled⟩
  | getcontext π =>
      obtain ⟨hup, hended, t, ht, rfl⟩ := process_cases hstep
      cases ht
      exact h.save hended (h.mask π hup.enabled)
  | setcontext π k =>
      obtain ⟨hup, hended, t, ht, rfl⟩ := process_cases hstep
      obtain ⟨mask, hmask, rfl⟩ := Option.map_eq_some_iff.mp ht
      exact h.remask hended hup.enabled (h.saved π mask (List.mem_of_getElem? hmask))
  | build_context π ρ =>
      obtain ⟨hup, hended, t, ht, rfl⟩ := process_cases hstep
      cases ht
      apply h.save hended
      obtain hreach | hblocked := hbuilds
      · intro k hlo hhi hk
        obtain ⟨τ, i, hτ, hi, henable⟩ := h.mask π hup.enabled k hlo hhi hk
        exact ⟨τ, i, hreach τ hτ, hi, henable⟩
      · rw [hblocked]
        exact passes_blocked
  | set_timer_single π =>
      obtain ⟨hup, hended, t, ht, rfl⟩ := process_cases hstep
      cases ht
      exact h.set_timer_single hended hup.enabled
  | send_interprocessor_interrupt π ρ =>
      obtain ⟨hup, hended, t, ht, rfl⟩ := process_cases hstep
      cases ht
      exact h.send_interprocessor_interrupt hended hup.enabled
  | send_interrupt π i =>
      obtain ⟨hup, hended, t, ht, rfl⟩ := process_cases hstep
      cases ht
      exact h.send_interrupt hended hup.enabled
  | expire π x =>
      simp only [ProcessorBoot.step] at hstep
      split at hstep
      next => cases hstep
      next hended =>
        obtain ⟨t, ht, rfl⟩ := Option.map_eq_some_iff.mp hstep
        exact h.expire (by simpa using hended) ht
  | deliver π e =>
      obtain ⟨⟨htakes, hended⟩, hn⟩ := Option.ite_none_right_eq_some.mp hstep
      cases hn
      exact h.handle_signal hended htakes

end Processes

/-- Processor 0 is about to initialise itself. -/
theorem inv_init (rt : RtSignals) (reach : Fin U → Fin U → Prop) : Inv rt reach (init rt U) where
  annotated := Threads.annotated_start _
  numbered := by
    constructor <;> simp [init, Threads.start, hardware_init]
  taken π i k hk := by cases hk
  barrier := by
    have hall (π : Fin U) (_ : π ∈ Finset.univ) : BootStmt.fetch_sub ∈ (init rt U).code π :=
      BootStmt.mem_program.mpr trivial
    rw [Threads.awaited, Finset.filter_true_of_mem hall]
    simp [init, Threads.start, hardware_init]
  blocked π _ _ := rfl
  first π hπ := by simp [init, Threads.start, hardware_init, hπ]
  mask π _ := passes_blocked
  saved π mask hmask := by cases hmask
  timer π t k hk := by cases hk
  pending e he := by cases he
  handled x hx := by cases hx
  ready hne := absurd rfl hne
  killed := rfl
  plotz what hwhat := by cases hwhat

end ProcessorBoot

end Cxp
