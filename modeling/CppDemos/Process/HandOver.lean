import Mathlib.Logic.Function.Basic
import CppDemos.Process.Parent

/-!
# Handing a task over

`submit` copies the bytes of a `std::function` into a pipe and `worker` copies
them into another one. A small trivially copyable callable is in these bytes; of
any other they hold the address in the parent's heap, and the worker looks it up
in its own, which is the parent's as it was at the fork with what the worker has
done since.

So what the worker calls is what was submitted exactly if the callable is stored
inline, or the worker's heap happens to hold the same one at that address.
-/

namespace CppDemos

open Machine

/-! ## Callables and their storage -/

/-- The type of a callable, which the code of every process knows, whether it is
trivially copyable, and whether the place for callables in a `std::function` is
aligned for it. -/
structure CallableType where
  number : Nat
  trivial : Bool
  aligned : Bool
deriving DecidableEq, Repr

/-- A callable with the bytes it has captured. -/
structure Callable where
  type : CallableType
  captured : List UInt8
deriving DecidableEq, Repr

/-- The callables on the heap of a process, by the numbers of their blocks. -/
abbrev Heap := Nat → Option Callable

inductive Storage where
  | inline (captured : List UInt8)
  | heap (address : Nat)
deriving DecidableEq, Repr

/-- The bytes of a `Task`: the functions for the type of its callable, and the
storage. -/
structure TaskObject where
  type : CallableType
  storage : Storage
deriving DecidableEq, Repr

/-- The callable is stored in the object, where callables of up to `localSize`
bytes have their place. -/
def Callable.Local (localSize : Nat) (c : Callable) : Prop :=
  c.type.trivial = true ∧ c.type.aligned = true ∧ c.captured.length ≤ localSize

instance (localSize : Nat) (c : Callable) : Decidable (c.Local localSize) :=
  inferInstanceAs (Decidable (_ ∧ _))

/-- The object that holds a callable, with its address if it is on the heap. -/
def Callable.object (localSize : Nat) (c : Callable) (address : Nat) : TaskObject where
  type := c.type
  storage := if c.Local localSize then .inline c.captured else .heap address

namespace TaskObject

/-- What a call of the object calls in a process with the given heap; `none` if
there is no callable of its type at its address. -/
def callable (o : TaskObject) (heap : Heap) : Option Callable :=
  match o.storage with
  | .inline captured => some ⟨o.type, captured⟩
  | .heap address => (heap address).filter (·.type = o.type)

def destroy (o : TaskObject) (heap : Heap) : Heap :=
  match o.storage with
  | .inline _ => heap
  | .heap address => Function.update heap address none

end TaskObject

/-- `new` and `delete`. -/
inductive MemoryCall where
  | alloc (address : Nat) (c : Callable)
  | free (address : Nat)

def MemoryCall.apply (heap : Heap) : MemoryCall → Option Heap
  | .alloc address c =>
      if heap address = none then some (Function.update heap address (some c)) else none
  | .free address => some (Function.update heap address none)

/-! ## The pool -/

/-- What is in a pipe for one task: the object, and the callable that it was
submitted for, which the worker does not know. `called` is set once the worker
has called it. -/
structure SentTask where
  object : TaskObject
  sent : Callable
  called : Bool
deriving DecidableEq, Repr

/-- A call of the constructor, of the destructor, on the parent's heap, of
`submit` with a callable at the given address, of a worker, or on a worker's
heap while it runs a task. -/
inductive HandOverEvent where
  | create (c : CreateCall)
  | destroy (c : DestroyCall)
  | memory (c : MemoryCall)
  | submit (c : Callable) (address : Nat)
  | worker (i : Nat)
  | workerMemory (i : Nat) (c : MemoryCall)

namespace ProcessPool

variable {α : Type}

/-- The loop of a worker behind `memcpy`: the task is called, and destroyed when
it has returned. Nothing is said of what a call through a dangling address
does. -/
def runTask : Exec SentTask Heap α := fun s i w readFd task =>
  if task.called then
    some (s.setWorker i { w with mem := task.object.destroy w.mem, pos := .reading readFd })
  else
    (task.object.callable w.mem).map fun _ =>
      s.setWorker i { w with pos := .running readFd { task with called := true } }

/-- `submit`, whose parameter is destroyed when it returns. -/
def submitTask [DecidableEq α] (localSize : Nat) (s : ProcessPool SentTask Heap α) (c : Callable)
    (address : Nat) : Option (ProcessPool SentTask Heap α) :=
  let object := c.object localSize address
  if s.pos = .ready ∧ object.callable s.mem = some c then
    (s.submit ⟨object, c, false⟩).map fun s => { s with mem := object.destroy s.mem }
  else none

/-- A task of worker `i` allocates or frees something. -/
def workerMemory (s : ProcessPool SentTask Heap α) (i : Nat) (c : MemoryCall) :
    Option (ProcessPool SentTask Heap α) :=
  s.workers[i]?.bind fun w =>
    match w.pos with
    | .running _ task =>
        if task.called then (c.apply w.mem).map fun mem => s.setWorker i { w with mem := mem }
        else none
    | _ => none

def handOver [DecidableEq α] (localSize : Nat) (s : ProcessPool SentTask Heap α) :
    HandOverEvent → Option (ProcessPool SentTask Heap α)
  | .create c => s.create c
  | .destroy c => s.destroy c
  | .memory c => (c.apply s.mem).map fun mem => { s with mem := mem }
  | .submit c address => s.submitTask localSize c address
  | .worker i => s.worker runTask i
  | .workerMemory i c => s.workerMemory i c

/-- Worker `i` has copied a task out of the pipe and is about to call it. -/
def Calls (s : ProcessPool SentTask Heap α) (i : Nat) (w : Worker SentTask Heap α)
    (task : SentTask) : Prop :=
  s.workers[i]? = some w ∧ task.called = false ∧ ∃ readFd, w.pos = .running readFd task

end ProcessPool

/-! ## What is called -/

/-- The object was made for the callable. -/
def SentTask.Sound (localSize : Nat) (t : SentTask) : Prop :=
  ∃ address, t.object = t.sent.object localSize address

/-- An object calls its callable exactly if it holds it, or the heap does. -/
theorem Callable.callable_object (localSize : Nat) (c : Callable) (address : Nat) (heap : Heap) :
    (c.object localSize address).callable heap = some c ↔
      c.Local localSize ∨ heap address = some c := by
  unfold TaskObject.callable Callable.object
  by_cases hlocal : c.Local localSize
  · simp [hlocal]
  · simp only [hlocal, if_false, false_or]
    rw [Option.filter_eq_some_iff]
    exact ⟨fun h => h.1, fun h => ⟨h, by simp⟩⟩

namespace ProcessPool

variable {α : Type} {s s' : ProcessPool SentTask Heap α} {localSize : Nat}

/-- Every task in a pipe or in a worker is one that `submit` made. A pipe moves
the object as it is, so what was true of it in the parent, where the callable
lies in particular, is what the worker finds. -/
structure Handed (localSize : Nat) (s : ProcessPool SentTask Heap α) : Prop where
  queues : ∀ q ∈ s.queues, ∀ t ∈ q, t.Sound localSize
  workers : ∀ w ∈ s.workers, ∀ readFd t, w.pos = .running readFd t → t.Sound localSize

theorem Handed.setWorker (h : s.Handed localSize) {i : Nat} {w : Worker SentTask Heap α}
    (hw : ∀ readFd t, w.pos = .running readFd t → t.Sound localSize) :
    (s.setWorker i w).Handed localSize where
  queues := h.queues
  workers w' hw' := by
    rcases List.mem_or_eq_of_mem_set hw' with hold | rfl
    · exact h.workers w' hold
    · exact hw

theorem Handed.create (h : s.Handed localSize) {c : CreateCall} (hstep : s.create c = some s') :
    s'.Handed localSize := by
  rcases create_eq_some hstep with ⟨-, -, fd0, fd1, fds, -, rfl⟩ | ⟨fd0, fd1, -, rfl⟩ |
    ⟨fd0, fd1, -, rfl⟩ | ⟨-, -, rfl⟩ | rfl
  · refine ⟨fun q hq => ?_, h.workers⟩
    rcases List.mem_append.mp hq with hold | hnew
    · exact h.queues q hold
    · cases List.mem_singleton.mp hnew
      intro t ht
      cases ht
  · refine ⟨h.queues, fun w hw => ?_⟩
    rcases List.mem_append.mp hw with hold | hnew
    · exact h.workers w hold
    · cases List.mem_singleton.mp hnew
      intro readFd t heq
      cases heq
  · exact ⟨h.queues, h.workers⟩
  · exact ⟨h.queues, h.workers⟩
  · exact ⟨h.queues, h.workers⟩

theorem Handed.destroy (h : s.Handed localSize) {c : DestroyCall}
    (hstep : s.destroy c = some s') : s'.Handed localSize := by
  rcases destroy_eq_some hstep with ⟨-, rfl⟩ | ⟨i, fd, -, -, rfl⟩ | ⟨i, w, -, -, -, rfl⟩ |
    ⟨i, -, -, rfl⟩ <;> exact ⟨h.queues, h.workers⟩

variable [DecidableEq α]

theorem Handed.submitTask (h : s.Handed localSize) {c : Callable} {address : Nat}
    (hstep : s.submitTask localSize c address = some s') : s'.Handed localSize := by
  unfold ProcessPool.submitTask at hstep
  dsimp only at hstep
  split at hstep
  · obtain ⟨s₁, hsubmit, rfl⟩ := Option.map_eq_some_iff.mp hstep
    obtain ⟨next, ⟨p, rfl⟩ | rfl | rfl⟩ := submit_eq_some hsubmit
    · refine ⟨fun q hq t ht => ?_, h.workers⟩
      obtain ⟨j, hj⟩ := List.mem_iff_getElem?.mp hq
      simp only [List.getElem?_modify] at hj
      obtain ⟨q₀, hq₀, rfl⟩ := Option.map_eq_some_iff.mp hj
      have hold := h.queues q₀ (List.mem_of_getElem? hq₀)
      split at ht
      · rcases List.mem_append.mp ht with hmem | hnew
        · exact hold t hmem
        · cases List.mem_singleton.mp hnew
          exact ⟨address, rfl⟩
      · exact hold t ht
    · exact ⟨h.queues, h.workers⟩
    · exact ⟨h.queues, h.workers⟩
  · cases hstep

theorem Handed.worker (h : s.Handed localSize) {i : Nat} (hstep : s.worker runTask i = some s') :
    s'.Handed localSize := by
  obtain ⟨w, hw, hcases⟩ := worker_eq_some hstep
  have hmem := List.mem_of_getElem? hw
  rcases hcases with ⟨fd0, fd1, hpos, rfl⟩ | ⟨readFd, hpos, hread⟩ | ⟨readFd, task, hpos, hexec⟩ |
    ⟨readFd, hpos, rfl⟩ | ⟨hpos, rfl⟩
  · exact h.setWorker fun _ _ heq => (by cases heq)
  · rcases read_eq_some hread with ⟨p, task, rest, -, hqueue, rfl⟩ | ⟨rfl, -⟩
    · have hqueueMem := List.mem_of_getElem? hqueue
      refine Handed.setWorker (s := { s with queues := s.queues.set p rest }) ?_ ?_
      · refine ⟨fun q hq t ht => ?_, h.workers⟩
        rcases List.mem_or_eq_of_mem_set hq with hold | rfl
        · exact h.queues q hold t ht
        · exact h.queues _ hqueueMem t (List.mem_cons_of_mem _ ht)
      · intro readFd' t heq
        cases heq
        exact h.queues _ hqueueMem task List.mem_cons_self
    · exact h.setWorker fun _ _ heq => (by cases heq)
  · have hsound := h.workers w hmem readFd task hpos
    unfold runTask at hexec
    split at hexec
    · cases hexec
      exact h.setWorker fun _ _ heq => (by cases heq)
    · obtain ⟨c, -, rfl⟩ := Option.map_eq_some_iff.mp hexec
      refine h.setWorker fun readFd' t heq => ?_
      cases heq
      exact hsound
  · exact h.setWorker fun _ _ heq => (by cases heq)
  · exact h.setWorker fun _ _ heq => (by cases heq)

theorem Handed.step (h : s.Handed localSize) {e : HandOverEvent}
    (hstep : s.handOver localSize e = some s') : s'.Handed localSize := by
  cases e with
  | create c => exact h.create hstep
  | destroy c => exact h.destroy hstep
  | memory c =>
      obtain ⟨mem, -, rfl⟩ := Option.map_eq_some_iff.mp hstep
      exact ⟨h.queues, h.workers⟩
  | submit c address => exact h.submitTask hstep
  | worker i => exact h.worker hstep
  | workerMemory i c =>
      obtain ⟨w, hw, hstep⟩ := Option.bind_eq_some_iff.mp hstep
      split at hstep
      · rename_i readFd task hpos
        split at hstep
        · obtain ⟨mem, -, rfl⟩ := Option.map_eq_some_iff.mp hstep
          exact h.setWorker fun readFd' t heq => h.workers w (List.mem_of_getElem? hw) readFd' t heq
        · cases hstep
      · cases hstep

/-- In every run, what a worker calls is what was submitted exactly if that is
stored inline or the worker has the same callable at its address. -/
theorem calls_iff {n : Nat} {fds : FdTable α} {mem : Heap} {es : List HandOverEvent}
    (h : run (handOver localSize) (init n fds mem) es = some s) {i : Nat}
    {w : Worker SentTask Heap α} {task : SentTask} (hcalls : s.Calls i w task) :
    task.object.callable w.mem = some task.sent ↔ task.sent.Local localSize ∨
      ∃ address, task.object.storage = .heap address ∧ w.mem address = some task.sent := by
  obtain ⟨hw, -, readFd, hpos⟩ := hcalls
  have hhanded : s.Handed localSize := run_invariant (P := fun s => s.Handed localSize)
    (fun _ _ _ hs hstep => hs.step hstep) h
    ⟨fun _ hq => (by cases hq), fun _ hw => (by cases hw)⟩
  obtain ⟨address, hobject⟩ := hhanded.workers w (List.mem_of_getElem? hw) readFd task hpos
  rw [hobject, Callable.callable_object]
  by_cases hlocal : task.sent.Local localSize
  · simp only [hlocal, true_or]
  · simp [Callable.object, hlocal]

/-! ## What is never lost -/

variable {n : Nat} {fds : FdTable α}

/-- `submit` of a callable that is on the parent's heap at the address, to a
worker that reads. -/
theorem submitTask_heap {c : Callable} (hnot : ¬ c.Local localSize) {address fd p : Nat}
    (hpos : s.pos = .ready) (hheap : s.mem address = some c)
    (hfd : s.pipes[s.nextWorker]? = some fd) (hget : s.fds.get fd = some (.writeEnd p))
    (hopen : s.Open (.readEnd p)) :
    s.submitTask localSize c address = some { s with
      mem := Function.update s.mem address none
      nextWorker := (s.nextWorker + 1) % s.numWorkers
      queues := s.queues.modify p (· ++ [⟨⟨c.type, .heap address⟩, c, false⟩]) } := by
  have hobject : c.object localSize address = ⟨c.type, .heap address⟩ := by
    simp only [Callable.object, if_neg hnot]
  have hholds := (c.callable_object localSize address s.mem).mpr (.inr hheap)
  rw [hobject] at hholds
  simp only [submitTask, hobject, hpos, hholds, and_self, if_true,
    submit_of_open hfd hget hopen, Option.map_some, TaskObject.destroy]

/-- A callable that is not stored inline is made on the parent's heap and submitted
to the first worker; the workers are as before. -/
theorem exists_submitted {c : Callable} (hnot : ¬ c.Local localSize) {address fd : Nat}
    (hpos : s.pos = .ready) (hfree : s.mem address = none) (hnext : s.nextWorker = 0)
    (hfd : s.pipes[0]? = some fd) (hget : s.fds.get fd = some (.writeEnd 0))
    (hopen : s.Open (.readEnd 0)) (hqueue : s.queues[0]? = some []) :
    ∃ s', run (handOver localSize) s [.memory (.alloc address c), .submit c address] = some s' ∧
      s'.workers = s.workers ∧ s'.queues[0]? = some [⟨⟨c.type, .heap address⟩, c, false⟩] := by
  have hmade : s.handOver localSize (.memory (.alloc address c)) =
      some { s with mem := Function.update s.mem address (some c) } := by
    simp only [handOver, MemoryCall.apply, hfree, if_true, Option.map_some]
  have hsubmit := submitTask_heap (s := { s with mem := Function.update s.mem address (some c) })
    hnot hpos (Function.update_self ..) (hnext ▸ hfd) hget hopen
  refine ⟨_, run_cons_eq_some.mpr ⟨_, hmade, run_cons_eq_some.mpr ⟨_, hsubmit, rfl⟩⟩, rfl, ?_⟩
  rw [List.getElem?_modify, hqueue]
  rfl

/-- A worker that has not run yet enters its loop and takes a task out of its
pipe; its heap is as before. -/
theorem exists_taken {i fd0 fd1 p : Nat} {w : Worker SentTask Heap α} {task : SentTask}
    {rest : List SentTask} (hw : s.workers[i]? = some w) (hfork : w.pos = .forked fd0 fd1)
    (hread : (w.fds.close fd1).get fd0 = some (.readEnd p))
    (hqueue : s.queues[p]? = some (task :: rest)) :
    ∃ s' w', run (handOver localSize) s [.worker i, .worker i] = some s' ∧
      s'.workers[i]? = some w' ∧ w'.mem = w.mem ∧ w'.pos = .running fd0 task := by
  have hlt := (List.getElem?_eq_some_iff.mp hw).1
  have henter : s.handOver localSize (.worker i) =
      some (s.setWorker i { w with fds := w.fds.close fd1, pos := .reading fd0 }) :=
    worker_forked hw hfork
  have hentered : (s.workers.set i { w with fds := w.fds.close fd1, pos := .reading fd0 })[i]? =
      some { w with fds := w.fds.close fd1, pos := .reading fd0 } := List.getElem?_set_self hlt
  have htake : (s.setWorker i { w with fds := w.fds.close fd1, pos := .reading fd0 }).handOver
      localSize (.worker i) = some _ := worker_reading hentered rfl hread hqueue
  refine ⟨_, _, run_cons_eq_some.mpr ⟨_, henter, run_cons_eq_some.mpr ⟨_, htake, rfl⟩⟩,
    List.getElem?_set_self ?_, rfl, rfl⟩
  exact Nat.lt_of_lt_of_eq hlt (List.length_set ..).symm

/-- A callable on the heap that is made and submitted once the workers are
there: worker 0 takes the task out of its pipe and finds nothing at the
address. -/
theorem exists_lost (mem : Heap) (hn : 1 ≤ n) (hroom : n + 1 ≤ fds.room) {c : Callable}
    (hnot : ¬ c.Local localSize) :
    ∃ es s w task, run (handOver localSize) (init n fds mem : ProcessPool SentTask Heap α) es =
      some s ∧ s.Calls 0 w task ∧ task.sent = c ∧ task.object.callable w.mem = none := by
  -- nothing is at address 0 when the workers are forked
  obtain ⟨cs, s, hrun, hpos, hmade⟩ := exists_made SentTask (Function.update mem 0 none) hroom
  have hcreated : run (handOver localSize) (init n fds mem)
      (.memory (.free 0) :: cs.map .create) = some s :=
    (run_map (fun _ _ => rfl) _ cs).trans hrun
  obtain ⟨w, fd0, fd1, fd, hw, hfork, hmem, hread, hqueue, hfd, hwrite, hopen⟩ :=
    hmade.first (parentInv_run hrun) hpos hn
  have hfree : s.mem 0 = none := by rw [hmade.memory, Function.update_self]
  obtain ⟨s₁, hsubmit, hworkers, hqueue₁⟩ :=
    exists_submitted hnot hpos hfree hmade.nextWorker hfd hwrite hopen hqueue
  obtain ⟨s₂, w', htake, hw', hmem', hpos'⟩ :=
    exists_taken (hworkers ▸ hw) hfork hread hqueue₁
  refine ⟨(.memory (.free 0) :: cs.map .create) ++
    ([.memory (.alloc 0 c), .submit c 0] ++ [.worker 0, .worker 0]), s₂, w', _,
    run_append.mpr ⟨s, hcreated, run_append.mpr ⟨s₁, hsubmit, htake⟩⟩,
    ⟨hw', rfl, fd0, hpos'⟩, rfl, ?_⟩
  show (w'.mem 0).filter _ = none
  rw [hmem', hmem, Function.update_self]
  rfl

/-- A callable comes through in every run of a pool exactly if it is stored
inline; and in any run what a worker calls is what was submitted exactly if that
is stored inline or the worker's heap holds the same callable at its address. -/
theorem hand_over_iff (mem : Heap) (hn : 1 ≤ n) (hroom : n + 1 ≤ fds.room) (c : Callable) :
    ((∀ (es : List HandOverEvent) (s : ProcessPool SentTask Heap α) (i : Nat)
        (w : Worker SentTask Heap α) (task : SentTask),
        run (handOver localSize) (init n fds mem) es = some s → s.Calls i w task →
          task.sent = c → task.object.callable w.mem = some c) ↔ c.Local localSize) ∧
    ∀ (es : List HandOverEvent) (s : ProcessPool SentTask Heap α) (i : Nat)
      (w : Worker SentTask Heap α) (task : SentTask),
      run (handOver localSize) (init n fds mem) es = some s → s.Calls i w task →
        (task.object.callable w.mem = some task.sent ↔ task.sent.Local localSize ∨
          ∃ address, task.object.storage = .heap address ∧ w.mem address = some task.sent) := by
  refine ⟨⟨fun h => ?_, fun hlocal es s i w task hrun hcalls hsent => ?_⟩,
    fun es s i w task hrun hcalls => calls_iff hrun hcalls⟩
  · by_contra hnot
    obtain ⟨es, s, w, task, hrun, hcalls, hsent, hlost⟩ :=
      exists_lost mem hn hroom hnot
    have hright := h es s 0 w task hrun hcalls hsent
    rw [hlost] at hright
    cases hright
  · subst hsent
    exact (calls_iff hrun hcalls).mpr (.inl hlocal)

/-- A lambda that has captured an `int`. -/
def capturesInt : Callable :=
  ⟨⟨0, true, true⟩, [7, 0, 0, 0]⟩

/-- A lambda that has captured three numbers of eight bytes. -/
def capturesThree : Callable :=
  ⟨⟨1, true, true⟩, List.replicate 24 0⟩

/-- Nothing open, and room for two descriptors. -/
def smallFds : FdTable Nat :=
  ⟨[none, none]⟩

theorem hand_over_iff_int :
    ((∀ (es : List HandOverEvent) (s : ProcessPool SentTask Heap Nat) (i : Nat)
        (w : Worker SentTask Heap Nat) (task : SentTask),
        run (handOver 16) (init 1 smallFds fun _ => none) es = some s → s.Calls i w task →
          task.sent = capturesInt → task.object.callable w.mem = some capturesInt) ↔
            capturesInt.Local 16) ∧
    ∀ (es : List HandOverEvent) (s : ProcessPool SentTask Heap Nat) (i : Nat)
      (w : Worker SentTask Heap Nat) (task : SentTask),
      run (handOver 16) (init 1 smallFds fun _ => none) es = some s → s.Calls i w task →
        (task.object.callable w.mem = some task.sent ↔ task.sent.Local 16 ∨
          ∃ address, task.object.storage = .heap address ∧ w.mem address = some task.sent) :=
  hand_over_iff (fun _ => none) (Nat.le_refl 1) (by decide) capturesInt

/-- With 24 bytes the callable is on the heap, and the worker finds nothing at
its address. -/
theorem large_capture_lost :
    ¬ ∀ (c : Callable) (es : List HandOverEvent) (s : ProcessPool SentTask Heap Nat) (i : Nat)
        (w : Worker SentTask Heap Nat) (task : SentTask),
        run (handOver 16) (init 1 smallFds fun _ => none) es = some s → s.Calls i w task →
          task.sent = c → task.object.callable w.mem = some c := by
  intro h
  obtain ⟨es, s, w, task, hrun, hcalls, hsent, hlost⟩ := exists_lost (fun _ => none)
    (Nat.le_refl 1) (show 1 + 1 ≤ smallFds.room by decide)
    (show ¬ capturesThree.Local 16 by decide)
  have hright := h capturesThree es s 0 w task hrun hcalls hsent
  rw [hlost] at hright
  cases hright

end ProcessPool

end CppDemos
