import Cxp.MemoryArena
import Cxp.MutexClaims

/-!
# The allocator under its mutex (`memory.c`)

`allocate_mem` and `release_mem` claim `mutex_mem` for the free lists and the tail.
Any number of processes on all processors call them at once, statement by statement.

The calls take effect one after the other (`Allocs.calls`), each as the call of
`Arena` that it is; so no byte is ever handed out to two callers, and what is handed
out lies in the arena as long as the demand of those calls fits
(`allocator_serves_many`).
-/

namespace Cxp

open Run

/-- The allocator, the blocks that its callers hold, the calls that they are in, and
the calls that have taken effect. -/
structure Allocs (A : Type*) where
  arena : Arena
  call : A → Option MemCall
  calls : List MemCall

inductive AllocAct (A : Type*)
  | call (p : A) (c : MemCall)
  /-- the section of the call -/
  | run (p : A)

namespace Allocs

variable {A : Type*} [DecidableEq A]

/-- `memory_init`. -/
def start (base total : Nat) : Allocs A := ⟨Arena.start base total, fun _ => none, []⟩

def step (s : Allocs A) : AllocAct A → Option (Allocs A)
  | .call p c =>
      if s.call p = none then some { s with call := Function.update s.call p (some c) } else none
  | .run p =>
      (s.call p).bind fun c =>
        (s.arena.step c).map fun w =>
          ⟨w, Function.update s.call p none, s.calls ++ [c]⟩

/-- The caller gets the block. -/
def holds (s : Allocs A) (p : A) (b : Block) : Allocs A :=
  ⟨⟨s.arena.mem, b :: s.arena.held⟩, Function.update s.call p none,
    s.calls ++ [.allocate b.1]⟩

/-- The caller gives its block back; it has none to give otherwise. -/
def drops (s : Allocs A) (p : A) (b : Block) : Option (Allocs A) :=
  if b ∈ s.arena.held then
    some ⟨⟨s.arena.mem, s.arena.held.erase b⟩, Function.update s.call p none,
      s.calls ++ [.release b.1 b.2]⟩
  else none

/-- The section of `allocate_mem`. -/
def allocate_mem (p : A) (index : MemIndex) : Section (Allocs A) Memory :=
  .read fun m =>
    match m.procmemlist index with
    | some block =>
        .write (fun m => { m with
          procmemlist := Function.update m.procmemlist index (m.link block) }) <|
        .act (fun s => some (s.holds p (index, block))) .done
    | none =>
        .read fun m =>
          if blockLen index ≤ m.taillen then
            .write (fun m => { m with tail := m.tail + blockLen index }) <|
            .act (fun s => some (s.holds p (index, m.tail))) .done
          else .act (fun _ => none) .done

/-- The section of `release_mem`. -/
def release_mem (p : A) (index : MemIndex) (addr : Nat) : Section (Allocs A) Memory :=
  .act (fun s => s.drops p (index, addr)) <|
  .write (fun m => { m with
    link := Function.update m.link addr (m.procmemlist index) }) <|
  .write (fun m => { m with
    procmemlist := Function.update m.procmemlist index (some addr) }) .done

/-- The allocator with the code of its sections; `mutex_mem` is its only mutex. -/
def sections : Sectioned (Allocs A) (AllocAct A) A Unit Memory where
  step := step
  agent
    | .call p _ | .run p => some p
  get s _ := s.arena.mem
  replace s v := { s with arena := ⟨v (), s.arena.held⟩ }
  code s
    | .run p =>
        (s.call p).map fun
          | .allocate index => ((), allocate_mem p index)
          | .release index addr => ((), release_mem p index addr)
    | .call _ _ => none

variable {s t : Allocs A} {p : A}

theorem run_allocate_mem {index : MemIndex} (hcall : s.call p = some (.allocate index)) :
    (sections (A := A)).run () (allocate_mem p index) s = s.step (.run p) := by
  simp only [step, hcall, Option.bind_some, Arena.step, Cxp.allocate_mem]
  change (sections (A := A)).run () (match s.arena.mem.procmemlist index with
    | some _ => _ | none => _) s = _
  cases s.arena.mem.procmemlist index with
  | some block => rfl
  | none =>
      change (sections (A := A)).run () (if blockLen index ≤ s.arena.mem.taillen then _ else _) s = _
      split
      · rfl
      · rfl

theorem run_release_mem {index : MemIndex} {addr : Nat}
    (hcall : s.call p = some (.release index addr)) :
    (sections (A := A)).run () (release_mem p index addr) s = s.step (.run p) := by
  simp only [step, hcall, Option.bind_some, Arena.step]
  change (s.drops p (index, addr)).bind _ = _
  unfold drops
  split
  · rfl
  · rfl

theorem sections_lawful : (sections (A := A)).Lawful where
  get_replace _ _ := rfl
  replace_get _ := rfl
  replace_replace _ _ _ := rfl
  step_code s a l c h := by
    cases a with
    | call p c => cases h
    | run p =>
        obtain ⟨call, hcall, heq⟩ := Option.map_eq_some_iff.mp h
        cases call with
        | allocate index =>
            cases heq
            exact (run_allocate_mem hcall).symm
        | release index addr =>
            cases heq
            exact (run_release_mem hcall).symm
  step_plain s a v h := by
    cases a with
    | call p c =>
        simp only [sections, step]
        rw [apply_ite (Option.map _)]
        rfl
    | run p =>
        have hcall : s.call p = none := Option.map_eq_none_iff.mp h
        simp only [sections, step, hcall]
        rfl
  code_replace s a v := by cases a <;> rfl
  code_single s a l c h := by
    cases a with
    | call p c => cases h
    | run p =>
        obtain ⟨call, -, heq⟩ := Option.map_eq_some_iff.mp h
        cases call with
        | allocate index =>
            cases heq
            intro m
            beta_reduce
            cases m.procmemlist index with
            | some block => exact And.intro (fun _ _ => rfl) trivial
            | none =>
                intro m'
                beta_reduce
                split
                · exact And.intro (fun _ _ => rfl) trivial
                · exact And.intro (fun _ _ => rfl) trivial
        | release index addr =>
            cases heq
            refine And.intro (fun s v => ?_) trivial
            simp only [sections, drops]
            rw [apply_ite (Option.map _)]
            rfl
  code_others s t a b p ha hb hstep := by
    cases a with
    | call q c => rfl
    | run q =>
        obtain rfl : q = p := Option.some.inj ha
        have hcall : t.call q = s.call q := by
          cases b with
          | call r c =>
              have hr : q ≠ r := fun heq => hb (congrArg some heq.symm)
              obtain ⟨-, ht⟩ := Option.ite_none_right_eq_some.mp hstep
              cases ht
              exact Function.update_of_ne hr ..
          | run r =>
              have hr : q ≠ r := fun heq => hb (congrArg some heq.symm)
              obtain ⟨c, -, ht⟩ := Option.bind_eq_some_iff.mp hstep
              obtain ⟨w, -, rfl⟩ := Option.map_eq_some_iff.mp ht
              exact Function.update_of_ne hr ..
        simp only [sections, hcall]

/-- The calls that have taken effect make a run of the arena. -/
def Follows (base total : Nat) (s : Allocs A) : Prop :=
  exec Arena.step (Arena.start base total) s.calls = some s.arena

theorem Follows.step {base total : Nat} (h : Follows base total s) {a : AllocAct A}
    (hstep : s.step a = some t) : Follows base total t := by
  cases a with
  | call p c =>
      obtain ⟨-, ht⟩ := Option.ite_none_right_eq_some.mp hstep
      cases ht
      exact h
  | run p =>
      obtain ⟨c, -, ht⟩ := Option.bind_eq_some_iff.mp hstep
      obtain ⟨w, hw, rfl⟩ := Option.map_eq_some_iff.mp ht
      unfold Follows at h ⊢
      rw [exec_append h]
      simp [exec, hw]

/-- In every run of the arena the blocks held are apart, and lie in the arena if the
demand of the calls fits. -/
theorem held_safe {base total : Nat} {calls : List MemCall} {w : Arena}
    (hrun : exec Arena.step (Arena.start base total) calls = some w) :
    w.held.Pairwise Apart ∧
      (demand calls ≤ total → ∀ b ∈ w.held, base ≤ b.2 ∧ b.stop ≤ base + total) := by
  refine ⟨?_, ?_⟩
  · have hlayout : ∃ free, Layout base w free :=
      Reachable.invariant (I := fun w => ∃ free, Layout base w free)
        (fun _ _ _ h hstep => h.choose_spec.step hstep) ⟨calls, hrun⟩
        ⟨_, layout_start base total⟩
    obtain ⟨free, hL⟩ := hlayout
    exact hL.apart.held_apart
  · intro hdemand
    have hfits := (carves_fit_iff_demand hrun (tracks_start base total)
      (by simp [Usage.demand, Usage.zero])).mpr hdemand
    exact (((arena_safe_iff_carves_fit hrun).mpr hfits).last hrun).1

end Allocs

/-- **The allocator serves many callers.**  At every statement, the calls that have
taken effect make a run of the arena; the blocks held are apart, and lie in the arena
as long as the demand of those calls fits; and while nobody is in a section the free
lists and the tail are those of that run. -/
theorem allocator_serves_many {A : Type*} [DecidableEq A] (base total : Nat)
    (acts : List (MutexAct (AllocAct A) A)) :
    Throughout (Mutexes.step (Allocs.sections (A := A)))
      (fun m => ∃ w, exec Arena.step (Arena.start base total) m.mem.calls = some w ∧
        w.held = m.mem.arena.held ∧
        ((m.mutex ()).claimed = false → w.mem = m.mem.arena.mem) ∧
        m.mem.arena.held.Pairwise Apart ∧
        (demand m.mem.calls ≤ total →
          ∀ b ∈ m.mem.arena.held, base ≤ b.2 ∧ b.stop ≤ base + total))
      (Mutexes.start (Allocs.start base total)) acts := by
  have hM := Allocs.sections_lawful (A := A)
  refine throughout_of_along
    (I := fun m => ∃ s, Mutexes.Follows (Allocs.sections (A := A)) m s ∧
      Allocs.Follows base total s)
    ?_ ?_ (along_true _ _) ⟨_, Mutexes.follows_start hM _, rfl⟩
  · intro m act n hm _ hstep
    obtain ⟨s, hfollows, hs⟩ := hm
    obtain ⟨t, ht, hfollows⟩ := hfollows.step hM hstep
    exact ⟨t, hfollows, Reachable.invariant (fun _ _ _ h hstep => Allocs.Follows.step h hstep)
      ⟨_, ht⟩ hs⟩
  · intro m hm
    obtain ⟨s, hfollows, hs⟩ := hm
    -- the states agree but for the free lists and the tail
    have hrest : ({ m.mem with arena := ⟨s.arena.mem, m.mem.arena.held⟩ } : Allocs A) = s :=
      hfollows.locked.rest
    have hcalls : s.calls = m.mem.calls := by rw [← hrest]
    have hheld : s.arena.held = m.mem.arena.held := by rw [← hrest]
    unfold Allocs.Follows at hs
    rw [hcalls] at hs
    have hsafe := Allocs.held_safe hs
    rw [hheld] at hsafe
    exact ⟨s.arena, hs, hheld, fun hfree => hfollows.locked.free () hfree, hsafe⟩

end Cxp
