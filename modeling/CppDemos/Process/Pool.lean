import CppDemos.Lib.FdTable
import CppDemos.Lib.Machine

/-!
# The process pool

`ProcessPool` of `2process_pool.cpp`: the parent from the constructor to the
destructor and the workers it forks, each with its own descriptor table and its
own memory, both of which `fork` copies. A worker's steps come between any two
of the parent's and of the other workers'.

`read` on a pipe takes a task if there is one, returns 0 if there is none and no
process has the write end open, and does not return otherwise; `write` to a pipe
whose read end nobody has open ends the writer. A task is what its `write` puts
into the pipe and what the worker's `memcpy` takes out; how it runs is a
parameter.
-/

namespace CppDemos

open Machine

/-! ## Processes -/

/-- An open file: an end of the pipe of a worker, or another file. -/
inductive PoolFile (α : Type) where
  | readEnd (pipe : Nat)
  | writeEnd (pipe : Nat)
  | other (file : α)
deriving DecidableEq, Repr

/-- Where a worker is: in the child branch of the constructor, at `read`, in a
task, at the `close` behind its loop, at `exit`, and gone. -/
inductive WorkerPos (τ : Type) where
  | forked (fd0 fd1 : Nat)
  | reading (readFd : Nat)
  | running (readFd : Nat) (task : τ)
  | closing (readFd : Nat)
  | exiting
  | exited
deriving DecidableEq, Repr

/-- The descriptor that the loop of a worker reads from. -/
def WorkerPos.readFd {τ : Type} : WorkerPos τ → Option Nat
  | .reading readFd | .running readFd _ | .closing readFd => some readFd
  | _ => none

structure Worker (τ μ α : Type) where
  fds : FdTable (PoolFile α)
  mem : μ
  pos : WorkerPos τ

/-- Where the parent is: at the head of the constructor's loop, behind `pipe`,
behind `fork`, between the constructor and the destructor, at the head of the
destructor's loop, in `waitpid`, behind the destructor, and gone. -/
inductive ParentPos where
  | creating
  | piped (fd0 fd1 : Nat)
  | forked (fd0 fd1 : Nat)
  | ready
  | destroying (i : Nat)
  | waiting (i : Nat)
  | destroyed
  | exited
deriving DecidableEq, Repr

/-- A pool, the process that has it, its workers in the order of `workerPids`,
and the tasks in each worker's pipe. -/
structure ProcessPool (τ μ α : Type) where
  numWorkers : Nat
  fds : FdTable (PoolFile α)
  mem : μ
  pos : ParentPos := .creating
  pipes : List Nat := []
  nextWorker : Nat := 0
  workers : List (Worker τ μ α) := []
  queues : List (List τ) := []

/-- The calls of the constructor, with whether `pipe` and `fork` succeed; `adopt`
is the parent's branch behind `fork`. -/
inductive CreateCall where
  | pipe (ok : Bool)
  | fork (ok : Bool)
  | adopt
  | done

/-- The calls of the destructor. -/
inductive DestroyCall where
  | start
  | close
  | waitpid
  | done

namespace ProcessPool

variable {τ μ α : Type}

/-- The parent before the constructor; nothing it has open is an end of the
pool's pipes. -/
def init (numWorkers : Nat) (fds : FdTable α) (mem : μ) : ProcessPool τ μ α where
  numWorkers := numWorkers
  fds := fds.map .other
  mem := mem

/-- Some process has the file open. -/
def Open (s : ProcessPool τ μ α) (f : PoolFile α) : Prop :=
  s.fds.Has f ∨ ∃ w ∈ s.workers, w.fds.Has f

instance [DecidableEq α] (s : ProcessPool τ μ α) (f : PoolFile α) : Decidable (s.Open f) :=
  inferInstanceAs (Decidable (_ ∨ _))

/-- The parent ends, which closes what it has open. -/
def exit (s : ProcessPool τ μ α) : ProcessPool τ μ α :=
  { s with fds := .empty, pos := .exited }

def create (s : ProcessPool τ μ α) (c : CreateCall) : Option (ProcessPool τ μ α) :=
  match s.pos, c with
  | .creating, .pipe ok =>
      if s.pipes.length < s.numWorkers then
        if ok then
          (s.fds.pipe (.readEnd s.queues.length) (.writeEnd s.queues.length)).map
            fun (fd0, fd1, fds) =>
              { s with fds := fds, pos := .piped fd0 fd1, queues := s.queues ++ [[]] }
        else some s.exit
      else none
  | .piped fd0 fd1, .fork ok =>
      if ok then
        some
          { s with
            pos := .forked fd0 fd1
            workers := s.workers ++ [⟨s.fds, s.mem, .forked fd0 fd1⟩] }
      else some s.exit
  | .forked fd0 fd1, .adopt =>
      some { s with fds := s.fds.close fd0, pos := .creating, pipes := s.pipes ++ [fd1] }
  | .creating, .done =>
      if s.pipes.length < s.numWorkers then none else some { s with pos := .ready }
  | _, _ => none

/-- `none` if `nextWorker` is no index of `pipes`. -/
def submit [DecidableEq α] (s : ProcessPool τ μ α) (task : τ) : Option (ProcessPool τ μ α) :=
  s.pipes[s.nextWorker]?.map fun fd =>
    let s := { s with nextWorker := (s.nextWorker + 1) % s.numWorkers }
    match s.fds.get fd with
    | some (.writeEnd p) =>
        -- without a reader SIGPIPE ends the parent
        if s.Open (.readEnd p) then { s with queues := s.queues.modify p (· ++ [task]) } else s.exit
    | _ => s

def destroy (s : ProcessPool τ μ α) (c : DestroyCall) : Option (ProcessPool τ μ α) :=
  match s.pos, c with
  | .ready, .start => some { s with pos := .destroying 0 }
  | .destroying i, .close =>
      if i < s.numWorkers then
        s.pipes[i]?.map fun fd => { s with fds := s.fds.close fd, pos := .waiting i }
      else none
  | .waiting i, .waitpid =>
      match s.workers[i]? with
      | some w =>
          match w.pos with
          | .exited => some { s with pos := .destroying (i + 1) }
          | _ => none
      | none => none
  | .destroying i, .done =>
      if i < s.numWorkers then none else some { s with pos := .destroyed }
  | _, _ => none

def setWorker (s : ProcessPool τ μ α) (i : Nat) (w : Worker τ μ α) : ProcessPool τ μ α :=
  { s with workers := s.workers.set i w }

/-- `read` in the loop of worker `i`; `none` while it blocks. -/
def read [DecidableEq α] (s : ProcessPool τ μ α) (i : Nat) (w : Worker τ μ α) (readFd : Nat) :
    Option (ProcessPool τ μ α) :=
  match w.fds.get readFd with
  | some (.readEnd p) =>
      match s.queues[p]? with
      | some (task :: rest) =>
          some
            ({ s with queues := s.queues.set p rest }.setWorker i
              { w with pos := .running readFd task })
      | _ =>
          if s.Open (.writeEnd p) then none
          else some (s.setWorker i { w with pos := .closing readFd })
  | _ => some (s.setWorker i { w with pos := .closing readFd })

/-- How a task runs in worker `i`: its next step, from the number of the worker,
the worker, `readFd` and the task as it stands. -/
abbrev Exec (τ μ α : Type) :=
  ProcessPool τ μ α → Nat → Worker τ μ α → Nat → τ → Option (ProcessPool τ μ α)

def worker [DecidableEq α] (exec : Exec τ μ α) (s : ProcessPool τ μ α) (i : Nat) :
    Option (ProcessPool τ μ α) :=
  s.workers[i]?.bind fun w =>
    match w.pos with
    | .forked fd0 fd1 =>
        some (s.setWorker i { w with fds := w.fds.close fd1, pos := .reading fd0 })
    | .reading readFd => s.read i w readFd
    | .running readFd task => exec s i w readFd task
    | .closing readFd =>
        some (s.setWorker i { w with fds := w.fds.close readFd, pos := .exiting })
    | .exiting => some (s.setWorker i { w with fds := .empty, pos := .exited })
    | .exited => none

/-! ## What a step does -/

theorem getElem?_concat_cases {β : Type} {l : List β} {a b : β} {i : Nat}
    (h : (l ++ [a])[i]? = some b) : l[i]? = some b ∨ (i = l.length ∧ b = a) := by
  rcases Nat.lt_trichotomy i l.length with hlt | rfl | hgt
  · exact .inl ((List.getElem?_append_left hlt).symm.trans h)
  · exact .inr ⟨rfl, Option.some.inj (h.symm.trans List.getElem?_concat_length)⟩
  · have hbound := (List.getElem?_eq_some_iff.mp h).1
    rw [List.length_append, List.length_singleton] at hbound
    omega

theorem getElem?_set_cases {β : Type} {l : List β} {a b : β} {i j : Nat}
    (h : (l.set i a)[j]? = some b) : (j = i ∧ b = a) ∨ (j ≠ i ∧ l[j]? = some b) := by
  by_cases hji : j = i
  · subst hji
    have hlt := (List.getElem?_eq_some_iff.mp h).1
    rw [List.length_set] at hlt
    exact .inl ⟨rfl, Option.some.inj (h.symm.trans (List.getElem?_set_self hlt))⟩
  · exact .inr ⟨hji, (List.getElem?_set_ne (Ne.symm hji)).symm.trans h⟩

variable {s s' : ProcessPool τ μ α} {i readFd : Nat} {w : Worker τ μ α}

theorem create_eq_some {c : CreateCall} (h : s.create c = some s') :
    (s.pos = .creating ∧ s.pipes.length < s.numWorkers ∧ ∃ fd0 fd1 fds,
        s.fds.pipe (.readEnd s.queues.length) (.writeEnd s.queues.length) = some (fd0, fd1, fds) ∧
          s' = { s with fds := fds, pos := .piped fd0 fd1, queues := s.queues ++ [[]] }) ∨
      (∃ fd0 fd1, s.pos = .piped fd0 fd1 ∧
        s' = { s with
          pos := .forked fd0 fd1
          workers := s.workers ++ [⟨s.fds, s.mem, .forked fd0 fd1⟩] }) ∨
      (∃ fd0 fd1, s.pos = .forked fd0 fd1 ∧
        s' = { s with fds := s.fds.close fd0, pos := .creating, pipes := s.pipes ++ [fd1] }) ∨
      (s.pos = .creating ∧ ¬ s.pipes.length < s.numWorkers ∧ s' = { s with pos := .ready }) ∨
      s' = s.exit := by
  unfold create at h
  split at h
  · rename_i hpos
    split at h
    · rename_i hlt
      split at h
      · obtain ⟨⟨fd0, fd1, fds⟩, hpipe, rfl⟩ := Option.map_eq_some_iff.mp h
        exact .inl ⟨hpos, hlt, fd0, fd1, fds, hpipe, rfl⟩
      · exact .inr (.inr (.inr (.inr (Option.some.inj h).symm)))
    · cases h
  · rename_i fd0 fd1 ok hpos
    split at h
    · exact .inr (.inl ⟨fd0, fd1, hpos, (Option.some.inj h).symm⟩)
    · exact .inr (.inr (.inr (.inr (Option.some.inj h).symm)))
  · rename_i fd0 fd1 hpos
    exact .inr (.inr (.inl ⟨fd0, fd1, hpos, (Option.some.inj h).symm⟩))
  · rename_i hpos
    split at h
    · cases h
    · rename_i hall
      exact .inr (.inr (.inr (.inl ⟨hpos, hall, (Option.some.inj h).symm⟩)))
  · cases h

theorem destroy_eq_some {c : DestroyCall} (h : s.destroy c = some s') :
    (s.pos = .ready ∧ s' = { s with pos := .destroying 0 }) ∨
      (∃ i fd, s.pos = .destroying i ∧ s.pipes[i]? = some fd ∧
        s' = { s with fds := s.fds.close fd, pos := .waiting i }) ∨
      (∃ i w, s.pos = .waiting i ∧ s.workers[i]? = some w ∧ w.pos = .exited ∧
        s' = { s with pos := .destroying (i + 1) }) ∨
      (∃ i, s.pos = .destroying i ∧ s.numWorkers ≤ i ∧ s' = { s with pos := .destroyed }) := by
  unfold destroy at h
  split at h
  · rename_i hpos
    exact .inl ⟨hpos, (Option.some.inj h).symm⟩
  · rename_i i hpos
    split at h
    · obtain ⟨fd, hfd, rfl⟩ := Option.map_eq_some_iff.mp h
      exact .inr (.inl ⟨i, fd, hpos, hfd, rfl⟩)
    · cases h
  · rename_i i hpos
    split at h
    · rename_i w hw
      split at h
      · rename_i hexited
        exact .inr (.inr (.inl ⟨i, w, hpos, hw, hexited, (Option.some.inj h).symm⟩))
      · cases h
    · cases h
  · rename_i i hpos
    split at h
    · cases h
    · rename_i hall
      exact .inr (.inr (.inr ⟨i, hpos, Nat.le_of_not_lt hall, (Option.some.inj h).symm⟩))
  · cases h

variable [DecidableEq α]

/-- `read` takes a task, or it returns without one: then the pipe is empty and
has no writer, if it is a pipe. -/
theorem read_eq_some (h : s.read i w readFd = some s') :
    (∃ p task rest, w.fds.get readFd = some (.readEnd p) ∧ s.queues[p]? = some (task :: rest) ∧
        s' = { s with queues := s.queues.set p rest }.setWorker i
          { w with pos := .running readFd task }) ∨
      (s' = s.setWorker i { w with pos := .closing readFd } ∧
        ∀ p, w.fds.get readFd = some (.readEnd p) →
          ¬ s.Open (.writeEnd p) ∧ ∀ task rest, s.queues[p]? ≠ some (task :: rest)) := by
  unfold read at h
  split at h
  · rename_i p hget
    split at h
    · rename_i task rest hqueue
      exact .inl ⟨p, task, rest, hget, hqueue, (Option.some.inj h).symm⟩
    · rename_i hempty
      split at h
      · cases h
      · rename_i hclosed
        refine .inr ⟨(Option.some.inj h).symm, fun q hq => ?_⟩
        cases hget.symm.trans hq
        exact ⟨hclosed, hempty⟩
  · rename_i hget
    exact .inr ⟨(Option.some.inj h).symm, fun p hp => absurd hp (hget p)⟩

theorem worker_eq_some {exec : Exec τ μ α} (h : s.worker exec i = some s') :
    ∃ w, s.workers[i]? = some w ∧
      ((∃ fd0 fd1, w.pos = .forked fd0 fd1 ∧
          s' = s.setWorker i { w with fds := w.fds.close fd1, pos := .reading fd0 }) ∨
        (∃ readFd, w.pos = .reading readFd ∧ s.read i w readFd = some s') ∨
        (∃ readFd task, w.pos = .running readFd task ∧ exec s i w readFd task = some s') ∨
        (∃ readFd, w.pos = .closing readFd ∧
          s' = s.setWorker i { w with fds := w.fds.close readFd, pos := .exiting }) ∨
        (w.pos = .exiting ∧ s' = s.setWorker i { w with fds := .empty, pos := .exited })) := by
  obtain ⟨w, hw, h⟩ := Option.bind_eq_some_iff.mp h
  refine ⟨w, hw, ?_⟩
  split at h
  · rename_i fd0 fd1 hpos
    exact .inl ⟨fd0, fd1, hpos, (Option.some.inj h).symm⟩
  · rename_i readFd hpos
    exact .inr (.inl ⟨readFd, hpos, h⟩)
  · rename_i readFd task hpos
    exact .inr (.inr (.inl ⟨readFd, task, hpos, h⟩))
  · rename_i readFd hpos
    exact .inr (.inr (.inr (.inl ⟨readFd, hpos, (Option.some.inj h).symm⟩)))
  · rename_i hpos
    exact .inr (.inr (.inr (.inr ⟨hpos, (Option.some.inj h).symm⟩)))
  · cases h

theorem worker_forked {exec : Exec τ μ α} {fd0 fd1 : Nat} (hw : s.workers[i]? = some w)
    (hpos : w.pos = .forked fd0 fd1) : s.worker exec i =
      some (s.setWorker i { w with fds := w.fds.close fd1, pos := .reading fd0 }) := by
  simp only [worker, hw, Option.bind_some, hpos]

theorem worker_reading {exec : Exec τ μ α} {p : Nat} {task : τ} {rest : List τ}
    (hw : s.workers[i]? = some w) (hpos : w.pos = .reading readFd)
    (hget : w.fds.get readFd = some (.readEnd p)) (hqueue : s.queues[p]? = some (task :: rest)) :
    s.worker exec i = some ({ s with queues := s.queues.set p rest }.setWorker i
      { w with pos := .running readFd task }) := by
  simp only [worker, hw, Option.bind_some, hpos, read, hget, hqueue]

theorem submit_of_open {task : τ} {fd p : Nat} (hfd : s.pipes[s.nextWorker]? = some fd)
    (hget : s.fds.get fd = some (.writeEnd p)) (hopen : s.Open (.readEnd p)) :
    s.submit task = some { s with
      nextWorker := (s.nextWorker + 1) % s.numWorkers
      queues := s.queues.modify p (· ++ [task]) } := by
  simp only [submit, hfd, Option.map_some, hget]
  rw [if_pos]
  exact hopen

/-- `submit` puts the task into the pipe, or changes nothing but the cursor, or
ends the parent. -/
theorem submit_eq_some {task : τ} (h : s.submit task = some s') :
    ∃ next, (∃ p, s' = { s with
        nextWorker := next, queues := s.queues.modify p (· ++ [task]) }) ∨
      s' = { s with nextWorker := next } ∨ s' = { s with nextWorker := next }.exit := by
  obtain ⟨fd, hfd, rfl⟩ := Option.map_eq_some_iff.mp h
  refine ⟨(s.nextWorker + 1) % s.numWorkers, ?_⟩
  dsimp only
  split
  · rename_i p hget
    split
    · exact .inl ⟨p, rfl⟩
    · exact .inr (.inr rfl)
  · exact .inr (.inl rfl)

end ProcessPool

end CppDemos
