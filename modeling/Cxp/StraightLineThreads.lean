import Cxp.RunInduction
import Mathlib.Data.Fintype.Card
import Mathlib.Data.List.Nodup
import Mathlib.Algebra.Order.BigOperators.Group.Finset

/-!
# Threads of straight-line code

Each thread executes a list of statements, one after the other, over a state
that all share; the threads interleave in any order.  A statement that cannot be
executed yet (`none`) makes its thread wait.

A statement comes with an assertion `post`.  Where its execution establishes it,
given those of the statements before it, and no other statement breaks it, it
holds of every statement that has been executed (`Annotated`).  A counter that
one statement of each thread decrements says how many threads have not got there
(`awaited`), so nobody passes a barrier before all have.
-/

structure Threads (ι S σ : Type*) where
  code : ι → List S
  shared : σ

namespace Threads

variable {ι S σ : Type*} [DecidableEq ι]

section Machine

variable (execute : ι → S → σ → Option σ) (program : ι → List S)

/-- All threads stand at the beginning. -/
def start (shared : σ) : Threads ι S σ := ⟨program, shared⟩

/-- The thread executes its next statement. -/
def run (m : Threads ι S σ) (i : ι) : Option (Threads ι S σ) :=
  match m.code i with
  | [] => none
  | s :: rest => (execute i s m.shared).map (⟨Function.update m.code i rest, ·⟩)

/-- The thread has executed its statement `s`. -/
def Executed (m : Threads ι S σ) (i : ι) (s : S) : Prop := s ∈ program i ∧ s ∉ m.code i

/-- The program of `i` has `r` before `s`. -/
def Before (i : ι) (r s : S) : Prop :=
  ∃ done rest, program i = done ++ s :: rest ∧ r ∈ done

/-- Every thread is in its program, and what the executed statements have
established holds. -/
structure Annotated (post : ι → S → σ → Prop) (m : Threads ι S σ) : Prop where
  code : ∀ i, m.code i <:+ program i
  post : ∀ i s, Executed program m i s → post i s m.shared

end Machine

section Steps

variable {execute : ι → S → σ → Option σ} {program : ι → List S} {post : ι → S → σ → Prop}
  {m n : Threads ι S σ} {i j : ι} {r s : S} {rest : List S} {t : σ}

theorem run_cases (h : run execute m i = some n) :
    ∃ s rest t, m.code i = s :: rest ∧ execute i s m.shared = some t ∧
      n = ⟨Function.update m.code i rest, t⟩ := by
  unfold run at h
  split at h
  next => cases h
  next s rest hcode =>
    obtain ⟨t, ht, rfl⟩ := Option.map_eq_some_iff.mp h
    exact ⟨s, rest, t, hcode, ht, rfl⟩

theorem run_eq (hcode : m.code i = s :: rest) (h : execute i s m.shared = some t) :
    run execute m i = some ⟨Function.update m.code i rest, t⟩ := by
  simp [run, hcode, h]

/-- A statement is executed with the one at the head of the code, or has been before. -/
theorem executed_update (hcode : m.code i = s :: rest)
    (h : Executed program (⟨Function.update m.code i rest, t⟩ : Threads ι S σ) j r) :
    Executed program m j r ∨ j = i ∧ r = s := by
  obtain ⟨hmem, hleft⟩ := h
  by_cases hj : j = i
  · subst hj
    simp only [Function.update_self] at hleft
    by_cases hr : r = s
    · exact Or.inr ⟨rfl, hr⟩
    · refine Or.inl ⟨hmem, ?_⟩
      rw [hcode]
      simp [hr, hleft]
  · simp only [Function.update_of_ne hj] at hleft
    exact Or.inl ⟨hmem, hleft⟩

theorem Executed.update (hcode : m.code i = s :: rest) (h : Executed program m j r) :
    Executed program (⟨Function.update m.code i rest, t⟩ : Threads ι S σ) j r := by
  refine ⟨h.1, ?_⟩
  by_cases hj : j = i
  · subst hj
    have hleft := h.2
    rw [hcode] at hleft
    simp only [Function.update_self]
    exact fun hr => hleft (List.mem_cons_of_mem s hr)
  · simp only [Function.update_of_ne hj]
    exact h.2

omit [DecidableEq ι] in
/-- Where the statements of a program are ranked, the lower one is before the other. -/
theorem before_of_rank {rank : S → Nat} (hranked : (program i).Pairwise (rank · < rank ·))
    (hr : r ∈ program i) (hs : s ∈ program i) (hlt : rank r < rank s) : Before program i r s := by
  obtain ⟨done, after, hprogram⟩ := List.mem_iff_append.mp hs
  refine ⟨done, after, hprogram, ?_⟩
  rw [hprogram] at hr hranked
  obtain hr | hr := List.mem_append.mp hr
  · exact hr
  · obtain rfl | hr := List.mem_cons.mp hr
    · omega
    · have hafter := (List.pairwise_cons.mp (List.pairwise_append.mp hranked).2.1).1 r hr
      omega

/-- A ranked program has no statement twice. -/
theorem nodup_of_rank {rank : S → Nat} {l : List S} (hranked : l.Pairwise (rank · < rank ·)) :
    l.Nodup :=
  hranked.imp fun hlt heq => by simp [heq] at hlt

omit [DecidableEq ι] in
/-- Code that has `r` left, which is before `s`, has `s` left after it. -/
theorem Before.reaches (hbefore : Before program i r s) (hnodup : (program i).Nodup)
    (hsuffix : m.code i <:+ program i) (hr : r ∈ m.code i) :
    ∃ mid after, m.code i = mid ++ s :: after ∧ r ∈ mid := by
  obtain ⟨done, after, hprogram, hmem⟩ := hbefore
  obtain ⟨past, hpast⟩ := hsuffix
  rw [hprogram] at hpast hnodup
  have hapart := (List.nodup_append.mp hnodup).2.2 r hmem
  obtain ⟨mid, hdone, hmid⟩ | ⟨mid, hpast', hmid⟩ := List.append_eq_append_iff.mp hpast
  · refine ⟨mid, after, hmid, ?_⟩
    rw [hmid] at hr
    obtain hr | hr := List.mem_append.mp hr
    · exact hr
    · exact absurd rfl (hapart r hr)
  · -- the code would begin after `r`
    have htail : r ∈ s :: after := by
      rw [hmid]
      exact List.mem_append_right mid hr
    exact absurd rfl (hapart r htail)

omit [DecidableEq ι] in
/-- **The statements before the next one have been executed.** -/
theorem Before.executed (hbefore : Before program i r s) (hnodup : (program i).Nodup)
    (hsuffix : m.code i <:+ program i) (hcode : m.code i = s :: rest) :
    Executed program m i r := by
  obtain ⟨done, after, hprogram, hmem⟩ := id hbefore
  refine ⟨by simp [hprogram, hmem], fun hr => ?_⟩
  obtain ⟨mid, after', hmid, hr'⟩ := hbefore.reaches hnodup hsuffix hr
  have honce := hsuffix.sublist.nodup hnodup
  rw [hcode] at hmid honce
  cases mid with
  | nil => cases hr'
  | cons x mid =>
      obtain ⟨rfl, hrest⟩ := List.cons.inj hmid
      simp [hrest] at honce

omit [DecidableEq ι] in
/-- Where a statement has been executed, so have those before it. -/
theorem Before.executed_of (hbefore : Before program i r s) (hnodup : (program i).Nodup)
    (hsuffix : m.code i <:+ program i) (h : Executed program m i s) :
    Executed program m i r := by
  obtain ⟨done, after, hprogram, hmem⟩ := id hbefore
  refine ⟨by simp [hprogram, hmem], fun hr => h.2 ?_⟩
  obtain ⟨mid, after', hmid, -⟩ := hbefore.reaches hnodup hsuffix hr
  simp [hmid]

/-- **A step keeps the annotation** if it establishes that of its statement and breaks
none of those executed. -/
theorem Annotated.run (h : Annotated program post m) (hnodup : (program i).Nodup)
    (hcode : m.code i = s :: rest)
    (hown : (∀ r, Before program i r s → post i r m.shared) → post i s t)
    (hfree : ∀ j r, Executed program m j r → post j r m.shared → post j r t) :
    Annotated program post ⟨Function.update m.code i rest, t⟩ := by
  constructor
  · intro j
    by_cases hj : j = i
    · subst hj
      simp only [Function.update_self]
      exact (List.suffix_cons s rest).trans (hcode ▸ h.code j)
    · simp only [Function.update_of_ne hj]
      exact h.code j
  · intro j r hr
    obtain hr | ⟨rfl, rfl⟩ := executed_update hcode hr
    · exact hfree j r hr (h.post j r hr)
    · exact hown fun q hq => h.post j q (hq.executed hnodup (h.code j) hcode)

omit [DecidableEq ι] in
/-- What is done to the shared state from outside keeps it if it breaks no annotation. -/
theorem Annotated.share (h : Annotated program post m)
    (hfree : ∀ j r, Executed program m j r → post j r m.shared → post j r t) :
    Annotated program post ⟨m.code, t⟩ :=
  ⟨h.code, fun j r hr => hfree j r hr (h.post j r hr)⟩

omit [DecidableEq ι] in
theorem annotated_start (shared : σ) : Annotated program post (start program shared) :=
  ⟨fun _ => List.suffix_rfl, fun _ _ h => absurd h.1 h.2⟩

end Steps

section Barrier

variable [Fintype ι] [DecidableEq S]

/-- How many threads still have to execute `arrive`. -/
def awaited (m : Threads ι S σ) (arrive : S) : Nat :=
  (Finset.univ.filter fun i => arrive ∈ m.code i).card

variable {m : Threads ι S σ} {i : ι} {arrive s : S} {rest : List S} {t : σ}

theorem awaited_arrive (hcode : m.code i = arrive :: rest) (hnodup : (m.code i).Nodup) :
    m.awaited arrive =
      (⟨Function.update m.code i rest, t⟩ : Threads ι S σ).awaited arrive + 1 := by
  rw [hcode] at hnodup
  have hsplit : (Finset.univ.filter fun j => arrive ∈ m.code j) =
      insert i (Finset.univ.filter fun j => arrive ∈ Function.update m.code i rest j) := by
    ext j
    by_cases hj : j = i
    · subst hj
      simp [hcode]
    · simp [hj]
  have hnot : i ∉ Finset.univ.filter fun j => arrive ∈ Function.update m.code i rest j := by
    simpa using (List.nodup_cons.mp hnodup).1
  rw [awaited, hsplit, Finset.card_insert_of_notMem hnot]
  rfl

theorem awaited_other (hcode : m.code i = s :: rest) (hne : arrive ≠ s) :
    (⟨Function.update m.code i rest, t⟩ : Threads ι S σ).awaited arrive = m.awaited arrive := by
  unfold awaited
  congr 1
  ext j
  by_cases hj : j = i
  · subst hj
    simp [hcode, hne]
  · simp [hj]

omit [DecidableEq ι] in
/-- **Nobody is awaited only where all have arrived.** -/
theorem arrived (h : m.awaited arrive = 0) (j : ι) : arrive ∉ m.code j := by
  have hempty := Finset.card_eq_zero.mp h
  have hj : j ∉ Finset.univ.filter fun i => arrive ∈ m.code i := by simp [hempty]
  simpa using hj

end Barrier

section Progress

variable [Fintype ι] {execute : ι → S → σ → Option σ} {m n : Threads ι S σ} {i : ι}

/-- The statements that are left. -/
def left (m : Threads ι S σ) : Nat := ∑ i, (m.code i).length

theorem left_run (h : run execute m i = some n) : n.left < m.left := by
  obtain ⟨s, rest, t, hcode, -, rfl⟩ := run_cases h
  apply Finset.sum_lt_sum
  · intro j _
    by_cases hj : j = i
    · subst hj
      simp [hcode]
    · simp [hj]
  · exact ⟨i, Finset.mem_univ i, by simp [hcode]⟩

/-- **A system in which somebody can always go on comes to its end.** -/
theorem completes {I : Threads ι S σ → Prop}
    (hlive : ∀ m, I m → (∃ i, m.code i ≠ []) → ∃ i n, run execute m i = some n ∧ I n)
    (hm : I m) : ∃ is n, Run.exec (run execute) m is = some n ∧ I n ∧ ∀ i, n.code i = [] := by
  induction hleft : m.left using Nat.strong_induction_on generalizing m with
  | _ k ih =>
    by_cases hdone : ∃ i, m.code i ≠ []
    · obtain ⟨i, n, hrun, hn⟩ := hlive m hm hdone
      obtain ⟨is, z, hexec, hz, hempty⟩ := ih n.left (hleft ▸ left_run hrun) hn rfl
      exact ⟨i :: is, z, by simp [Run.exec, hrun, hexec], hz, hempty⟩
    · exact ⟨[], m, rfl, hm, fun i => not_not.mp (not_exists.mp hdone i)⟩

end Progress

end Threads
