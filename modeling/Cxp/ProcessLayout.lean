import Cxp.MemoryArena
import Cxp.ProcessRecord

/-!
# The block of a new process (`sched.c`, `hardware.c`, `memory.c`)

`make_process` asks `find_mem_index` for a block that holds the process record
and the stack, and `build_context` divides the stack into an area for the saved
context and what the process may use.  The sum is cut down to 32 bits on its
way to `find_mem_index`, and the difference is an unsigned number too.

Neither is checked.  A new process lies within its block exactly when neither
wraps around (`process_fits_iff`): a stack has to hold a saved context, and a
stack of nearly `2 ^ 32` bytes gets one of the smallest blocks.
-/

namespace Cxp

/-- What the platform settles: the size of a process record, where the stack
begins in it, the size of a saved context, and the width of `size_t`. -/
structure Platform where
  sizeof_Process : Nat
  stack : Nat
  sizeof_ucontext_t : Nat
  width : Nat
  stack_le : stack ≤ sizeof_Process
  width_ge : 32 ≤ width
  sizeof_lt : sizeof_ucontext_t < 2 ^ width

/-- A context as `build_context` fills it in. -/
structure NewContext (Code Arg : Type) where
  uc_link : Option Nat
  ss_sp : Nat
  ss_size : Nat
  code : Code
  args : List Arg

/-- A new process, and the memory it has been allocated from. -/
structure NewProcess (Code Arg : Type) where
  addr : Nat
  next : Option Nat
  index : MemIndex
  pri : Nat
  pun : Nat
  alt_state : AltState
  sched_state : SchedState
  stackptr : Nat
  context : NewContext Code Arg
  mem : Memory

/-- The index of the first block length that is large enough; `none` is the stop
in `plotz("No memory block large enough")`. -/
def find_mem_index (size : UInt32) : Option MemIndex :=
  Fin.find? fun i => size.toNat ≤ blockLen i

namespace Platform

variable (plat : Platform) {Code Arg : Type}

/-- `stacksize + sizeof(Process)`, as `find_mem_index` gets it. -/
def request (stacksize : UInt32) : UInt32 :=
  UInt32.ofNat ((stacksize.toNat + plat.sizeof_Process) % 2 ^ plat.width)

/-- `stacksize - sizeof(ucontext_t)`. -/
def stackSpace (stacksize : UInt32) : Nat :=
  (stacksize.toNat + 2 ^ plat.width - plat.sizeof_ucontext_t) % 2 ^ plat.width

/-- Allocate the record with its stack; `none` is a stop in `plotz`. -/
def build_process (m : Memory) (stacksize : UInt32) :
    Option (MemIndex × Nat × Memory) :=
  (find_mem_index (plat.request stacksize)).bind fun index =>
    (allocate_mem m index).map fun r => (index, r)

/-- The context of a process whose stack begins at `stackptr`. -/
def build_context (stackptr : Nat) (stacksize : UInt32) (code : Code) (args : List Arg) :
    NewContext Code Arg where
  uc_link := none
  ss_sp := stackptr + plat.sizeof_ucontext_t
  ss_size := plat.stackSpace stacksize
  code := code
  args := args

/-- `none` is a stop in `plotz`; `failed`: `getcontext` reports an error. -/
def make_process (m : Memory) (code : Code) (args : List Arg) (stacksize : UInt32)
    (pri pun : Nat) (failed : Bool) : Option (NewProcess Code Arg) :=
  (plat.build_process m stacksize).bind fun r =>
    if failed then none
    else some {
      addr := r.2.1
      next := none
      index := r.1
      pri := pri % 2 ^ 16
      pun := pun % 2 ^ 16
      alt_state := .none
      sched_state := .waiting
      stackptr := r.2.1 + plat.stack
      context := plat.build_context (r.2.1 + plat.stack) stacksize code args
      mem := r.2.2 }

/-- The block is large enough, the saved context and the stack lie in it, and
neither the sum nor the difference has wrapped around. -/
structure Fits (stacksize : UInt32) (p : NewProcess Code Arg) : Prop where
  large : plat.sizeof_Process + stacksize.toNat ≤ blockLen p.index
  context : p.addr ≤ p.stackptr ∧
    p.stackptr + plat.sizeof_ucontext_t ≤ p.addr + blockLen p.index
  stack : p.addr ≤ p.context.ss_sp ∧
    p.context.ss_sp + p.context.ss_size ≤ p.addr + blockLen p.index
  sum : (plat.request stacksize).toNat = stacksize.toNat + plat.sizeof_Process
  difference : p.context.ss_size + plat.sizeof_ucontext_t = stacksize.toNat

/-- There is no free block of the class, and the tail is too short for one. -/
def NoRoom (m : Memory) (index : MemIndex) : Prop :=
  m.procmemlist index = none ∧ m.taillen < blockLen index

end Platform

/-- The block lengths increase. -/
theorem blockLen_mono {i j : MemIndex} (h : i ≤ j) : blockLen i ≤ blockLen j := by
  revert i j
  decide

/-- **What `find_mem_index` finds** is large enough, and nothing smaller is. -/
theorem find_mem_index_eq_some {size : UInt32} {i : MemIndex} :
    find_mem_index size = some i ↔
      size.toNat ≤ blockLen i ∧ ∀ j < i, blockLen j < size.toNat := by
  simp [find_mem_index]

/-- It finds nothing for more than the largest block length. -/
theorem find_mem_index_eq_none {size : UInt32} :
    find_mem_index size = none ↔ blockLen 20 < size.toNat := by
  have hnone : find_mem_index size = none ↔ ∀ i, blockLen i < size.toNat := by
    simp [find_mem_index]
  rw [hnone]
  constructor
  · intro h
    exact h 20
  · intro h i
    exact Nat.lt_of_le_of_lt (blockLen_mono (Nat.le_of_lt_succ i.isLt)) h

namespace Platform

variable {plat : Platform} {Code Arg : Type} {m : Memory} {stacksize : UInt32}
  {p : NewProcess Code Arg} {code : Code} {args : List Arg} {pri pun : Nat} {failed : Bool}

/-- Of the sum only the low-order 32 bits count. -/
theorem request_toNat (plat : Platform) (stacksize : UInt32) :
    (plat.request stacksize).toNat = (stacksize.toNat + plat.sizeof_Process) % 2 ^ 32 := by
  rw [request, UInt32.toNat_ofNat', Nat.mod_mod_of_dvd _ (Nat.pow_dvd_pow 2 plat.width_ge)]

theorem stacksize_lt (plat : Platform) (stacksize : UInt32) :
    stacksize.toNat < 2 ^ plat.width :=
  Nat.lt_of_lt_of_le stacksize.toNat_lt (Nat.pow_le_pow_right Nat.two_pos plat.width_ge)

/-- A stack that holds a context has the rest for the process. -/
theorem stackSpace_of_le (h : plat.sizeof_ucontext_t ≤ stacksize.toNat) :
    plat.stackSpace stacksize = stacksize.toNat - plat.sizeof_ucontext_t := by
  have hlt := plat.stacksize_lt stacksize
  have hsplit : stacksize.toNat + 2 ^ plat.width - plat.sizeof_ucontext_t =
      stacksize.toNat - plat.sizeof_ucontext_t + 2 ^ plat.width := by omega
  rw [stackSpace, hsplit, Nat.add_mod_right, Nat.mod_eq_of_lt (by omega)]

/-- One that does not has nearly the whole address space. -/
theorem stackSpace_of_lt (h : stacksize.toNat < plat.sizeof_ucontext_t) :
    plat.stackSpace stacksize + plat.sizeof_ucontext_t = stacksize.toNat + 2 ^ plat.width := by
  have hlt := plat.sizeof_lt
  rw [stackSpace, Nat.mod_eq_of_lt (by omega)]
  omega

/-- Everything `make_process` does when it does not stop. -/
theorem make_process_eq_some
    (h : plat.make_process m code args stacksize pri pun failed = some p) :
    failed = false ∧ find_mem_index (plat.request stacksize) = some p.index ∧
      allocate_mem m p.index = some (p.addr, p.mem) ∧ p.stackptr = p.addr + plat.stack ∧
      p.context = plat.build_context p.stackptr stacksize code args := by
  unfold make_process build_process at h
  obtain ⟨r, hr, h⟩ := Option.bind_eq_some_iff.mp h
  obtain ⟨index, hindex, hr⟩ := Option.bind_eq_some_iff.mp hr
  obtain ⟨b, hb, rfl⟩ := Option.map_eq_some_iff.mp hr
  cases failed with
  | true => cases h
  | false =>
      obtain rfl := Option.some.inj h
      exact ⟨rfl, hindex, hb, rfl, rfl⟩

/-- `allocate_mem` stops where there is no room. -/
theorem allocate_mem_eq_none {i : MemIndex} : allocate_mem m i = none ↔ NoRoom m i := by
  unfold allocate_mem NoRoom
  cases m.procmemlist i with
  | some block => simp
  | none => simp

/-- **A new process fits**, if neither the sum nor the difference wraps around. -/
theorem fits_of_no_wrap (hsum : stacksize.toNat + plat.sizeof_Process < 2 ^ 32)
    (hcontext : plat.sizeof_ucontext_t ≤ stacksize.toNat)
    (h : plat.make_process m code args stacksize pri pun failed = some p) :
    plat.Fits stacksize p := by
  obtain ⟨-, hindex, -, hstackptr, hbuilt⟩ := make_process_eq_some h
  have hrequest : (plat.request stacksize).toNat = stacksize.toNat + plat.sizeof_Process := by
    rw [request_toNat, Nat.mod_eq_of_lt hsum]
  have hlarge := (find_mem_index_eq_some.mp hindex).1
  have hspace := stackSpace_of_le hcontext
  have hstack := plat.stack_le
  have hsp : p.context.ss_sp = p.stackptr + plat.sizeof_ucontext_t := by rw [hbuilt]; rfl
  have hsize : p.context.ss_size = plat.stackSpace stacksize := by rw [hbuilt]; rfl
  constructor <;> omega

/-- A process that fits has been built without wrapping around. -/
theorem Fits.no_wrap (h : plat.Fits stacksize p) :
    plat.sizeof_ucontext_t ≤ stacksize.toNat ∧
      stacksize.toNat + plat.sizeof_Process < 2 ^ 32 := by
  have hlt := (plat.request stacksize).toNat_lt
  have hsum := h.sum
  have hdifference := h.difference
  omega

/-- Where `make_process` stops. -/
theorem make_process_eq_none :
    plat.make_process m code args stacksize pri pun failed = none ↔
      failed = true ∨ blockLen 20 < (plat.request stacksize).toNat ∨
        ∃ i, find_mem_index (plat.request stacksize) = some i ∧ NoRoom m i := by
  rw [← find_mem_index_eq_none]
  unfold make_process build_process
  cases hindex : find_mem_index (plat.request stacksize) with
  | none => simp
  | some i =>
      cases hb : allocate_mem m i with
      | none => simp [hb, allocate_mem_eq_none.mp hb]
      | some b =>
          have hroom : ¬ NoRoom m i := by
            rw [← allocate_mem_eq_none, hb]
            simp
          cases failed <;> simp [hb, hroom]

end Platform

/-- **When a new process lies within its block.**  For every stack size, either
`make_process` stops, because the request is larger than every block, or there is
no room for a block of its class, or `getcontext` fails; or else the record, the
saved context and the stack lie within the block exactly when the stack size is
that of a context at least, and the record does not make it exceed 32 bits. -/
theorem process_fits_iff (plat : Platform) {Code Arg : Type} (m : Memory) (code : Code)
    (args : List Arg) (stacksize : UInt32) (pri pun : Nat) (failed : Bool) :
    (∀ p, plat.make_process m code args stacksize pri pun failed = some p →
      plat.Fits stacksize p) ↔
    (failed = true ∨ blockLen 20 < (stacksize.toNat + plat.sizeof_Process) % 2 ^ 32 ∨
      ∃ i, find_mem_index (plat.request stacksize) = some i ∧ Platform.NoRoom m i) ∨
    plat.sizeof_ucontext_t ≤ stacksize.toNat ∧
      stacksize.toNat + plat.sizeof_Process < 2 ^ 32 := by
  have hstops : plat.make_process m code args stacksize pri pun failed = none ↔ _ :=
    Platform.make_process_eq_none
  rw [Platform.request_toNat] at hstops
  rw [← hstops]
  constructor
  · intro hall
    cases hmake : plat.make_process m code args stacksize pri pun failed with
    | none => exact Or.inl rfl
    | some p => exact Or.inr (hall p hmake).no_wrap
  · intro h p hmake
    obtain hnone | ⟨hcontext, hsum⟩ := h
    · rw [hnone] at hmake
      cases hmake
    · exact Platform.fits_of_no_wrap hsum hcontext hmake

/-- A platform of 32 bits. -/
def narrow : Platform where
  sizeof_Process := 16
  stack := 16
  sizeof_ucontext_t := 512
  width := 32
  stack_le := Nat.le_refl _
  width_ge := Nat.le_refl _
  sizeof_lt := by decide

/-- A stack of `2 ^ 32 - 8` bytes gets a block of 18, and the stack of 100 bytes
is said to be longer than the address space. -/
theorem process_outgrows_block :
    (¬ ∀ p, narrow.make_process (memory_init 0 65536) () [()] 4294967288 0 0 false = some p →
      narrow.Fits 4294967288 p) ∧
    ¬ ∀ p, narrow.make_process (memory_init 0 65536) () [()] 100 0 0 false = some p →
      narrow.Fits 100 p := by
  have hroom : ∀ i, ¬ Platform.NoRoom (memory_init 0 65536) i := by
    intro i hnone
    have hle := blockLen_mono (j := 20) (Nat.le_of_lt_succ i.isLt)
    exact absurd (Nat.lt_of_lt_of_le hnone.2 hle) (by decide)
  have hbuilt : ∀ stacksize : UInt32, (stacksize.toNat + 16) % 2 ^ 32 ≤ blockLen 20 →
      narrow.make_process (memory_init 0 65536) () [()] stacksize 0 0 false ≠ none := by
    intro stacksize hsmall hnone
    obtain hfailed | hlarge | ⟨i, -, hnot⟩ := Platform.make_process_eq_none.mp hnone
    · cases hfailed
    · rw [Platform.request_toNat] at hlarge
      exact absurd hlarge (Nat.not_lt.mpr hsmall)
    · exact hroom i hnot
  constructor
  · intro hall
    obtain ⟨p, hp⟩ := Option.ne_none_iff_exists'.mp (hbuilt 4294967288 (by decide))
    exact absurd (hall p hp).no_wrap.2 (by decide)
  · intro hall
    obtain ⟨p, hp⟩ := Option.ne_none_iff_exists'.mp (hbuilt 100 (by decide))
    exact absurd (hall p hp).no_wrap.1 (by decide)

end Cxp
