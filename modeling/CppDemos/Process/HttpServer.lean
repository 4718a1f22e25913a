import CppDemos.Process.ForkServer
import CppDemos.Process.Parent

/-!
# The HTTP server over the pool

`main` of `httpserver.cpp`: a pool of four workers is made, and then every
accepted connection is handed over as a task that holds the number of the
client's socket. The number is the parent's. The workers were forked before, so
none of them has a client's socket open, and what is open in a worker under the
number is something else.

`pipe` takes the lowest free number for its read end, and the parent gives it
back at once. So all workers have the read end of their pipe open under one
number, `accept` gives the same number to the first connection, and every later
connection gets one under which no worker has anything open.
-/

namespace CppDemos

open Machine

/-- `sizeof(Task)`, a `std::function`. -/
def sizeofTask : Nat := 32

/-- `BUFFER_SIZE` of the server. -/
def requestBuffer : Nat := 1024

/-- How many tasks one `read` of a request touches, if they are what it reads. -/
def touchedTasks : Nat := (requestBuffer - 1 + (sizeofTask - 1)) / sizeofTask

/-- A task: what the lambda has captured, the number of the connection it is
for, which the code does not know, and how far `handleClient` has come. -/
structure ClientTask where
  clientSocket : Nat
  connection : Nat
  pos : HandlePos
deriving DecidableEq, Repr

/-- Where `main` is in its loop: at `accept`, and at `submit`. -/
inductive HttpPos where
  | accepting
  | submitting (clientSocket connection : Nat)
deriving DecidableEq, Repr

/-- The server, and the descriptors of the accepted connections in their
order. -/
structure HttpServer (μ β : Type) where
  pool : ProcessPool ClientTask μ (SocketFile β)
  pos : HttpPos := .accepting
  accepted : List Nat := []

/-- A call of the constructor or of `main`, or a step of worker `i`; `bytesRead`
is what a `read` in `handleClient` returns, if that is not decided by a pipe. -/
inductive HttpEvent where
  | create (c : CreateCall)
  | accept (ok : Bool)
  | submit
  | worker (i : Nat) (bytesRead : Int)

namespace ProcessPool

variable {μ β : Type} [DecidableEq β]

/-- `handleClient` in worker `i`. A `read` from a pipe takes up to
`touchedTasks` tasks, the last one in part; on a number under which nothing can
be read it fails. The result of `write` is not looked at. -/
def handleClient (bytesRead : Int) : Exec ClientTask μ (SocketFile β) := fun s i w readFd task =>
  let goes (bytesRead : Int) : ProcessPool ClientTask μ (SocketFile β) :=
    match task.pos.next bytesRead with
    | some pos => s.setWorker i { w with pos := .running readFd { task with pos := pos } }
    | none => s.setWorker i { w with fds := w.fds.close task.clientSocket, pos := .reading readFd }
  match task.pos with
  | .reading =>
      match w.fds.get task.clientSocket with
      | some (.readEnd p) =>
          match s.queues[p]? with
          | some (t :: ts) =>
              some
                ({ s with queues := s.queues.set p ((t :: ts).drop touchedTasks) }.setWorker i
                  { w with pos := .running readFd { task with pos := .writing } })
          | _ => if s.Open (.writeEnd p) then none else some (goes 0)
      | some (.other _) => some (goes bytesRead)
      | _ => some (goes (-1))
  | _ => some (goes bytesRead)

end ProcessPool

namespace HttpServer

variable {μ β : Type}

def step [DecidableEq β] (s : HttpServer μ β) : HttpEvent → Option (HttpServer μ β)
  | .create c => (s.pool.create c).map fun pool => { s with pool := pool }
  | .accept ok =>
      if s.pool.pos = .ready ∧ s.pos = .accepting then
        if ok then
          (s.pool.fds.alloc (.other (.client s.accepted.length))).map fun (clientSocket, fds) =>
            { pool := { s.pool with fds := fds }
              pos := .submitting clientSocket s.accepted.length
              accepted := s.accepted ++ [clientSocket] }
        else some s
      else none
  | .submit =>
      match s.pos with
      | .submitting clientSocket connection =>
          if s.pool.pos = .ready then
            (s.pool.submit ⟨clientSocket, connection, .reading⟩).map fun pool =>
              { s with pool := pool, pos := .accepting }
          else none
      | .accepting => none
  | .worker i bytesRead =>
      (s.pool.worker (ProcessPool.handleClient bytesRead) i).map fun pool => { s with pool := pool }

/-- `main` before the pool is made, with the listening socket among what is
open. -/
def init (fds : FdTable β) (mem : μ) : HttpServer μ β where
  pool := .init 4 (fds.map .before) mem

/-! ## What is open where -/

variable {s s' : HttpServer μ β} {a r : Nat}

def submitted (s : HttpServer μ β) : Nat :=
  match s.pos with
  | .accepting => s.accepted.length
  | .submitting _ connection => connection

/-- A task that is on its way: it is for a connection that has been handed over
and holds the number that `accept` returned. -/
def Known (accepted : List Nat) (submitted : Nat) (t : ClientTask) : Prop :=
  t.connection < submitted ∧ accepted[t.connection]? = some t.clientSocket

/-- The tasks in a pipe; the one for the first connection has nothing before
it. -/
structure QueueInv (accepted : List Nat) (submitted : Nat) (q : List ClientTask) : Prop where
  known : ∀ t ∈ q, Known accepted submitted t
  tail : ∀ t ∈ q.tail, t.connection ≠ 0

/-- Worker `j`, which reads from its pipe under the number `a`, unless the task
of the first connection has closed it. -/
structure WorkerInv (a : Nat) (accepted : List Nat) (submitted j : Nat) (q : List ClientTask)
    (w : Worker ClientTask μ (SocketFile β)) : Prop where
  forked : ∀ fd0 fd1, w.pos = .forked fd0 fd1 →
    fd0 = a ∧ fd1 ≠ a ∧ w.fds.get a = some (.readEnd j)
  looping : ∀ fd, w.pos.readFd = some fd → fd = a ∧ (w.fds.get a = some (.readEnd j) ∨
    (w.fds.get a = none ∧ 0 < submitted ∧ (∀ t ∈ q, t.connection ≠ 0) ∧
      ∀ t, w.pos = .running fd t → t.connection ≠ 0))
  running : ∀ fd t, w.pos = .running fd t → Known accepted submitted t ∧ ∀ t' ∈ q, t'.connection ≠ 0

/-- The first connection has the number under which the workers have their
pipes, and no worker has anything open under the number of a later one. -/
structure Inv (a r : Nat) (s : HttpServer μ β) : Prop where
  parent : s.pool.ParentInv 4 r
  free : s.accepted = [] → s.pool.pos ≠ .exited → (∀ i < a, s.pool.fds.get i ≠ none) ∧
    match s.pool.pos.making with
    | some (fd0, _) => fd0 = a
    | none => s.pool.fds.get a = none
  taken : s.accepted ≠ [] → s.pool.pos = .exited ∨
    (s.pool.pos = .ready ∧ s.pool.fds.get a ≠ none)
  pos : ∀ fd c, s.pos = .submitting fd c →
    c + 1 = s.accepted.length ∧ s.accepted[c]? = some fd
  sockets : ∀ c fd, s.accepted[c]? = some fd → (c = 0 ∧ fd = a) ∨
    (c ≠ 0 ∧ fd ≠ a ∧ ∀ w ∈ s.pool.workers, w.fds.get fd = none)
  tables : s.pool.pos ≠ .exited → ∀ w ∈ s.pool.workers, ∀ fd, fd ≠ a →
    w.fds.get fd ≠ none → s.pool.fds.get fd ≠ none
  queues : ∀ q ∈ s.pool.queues, QueueInv s.accepted s.submitted q
  workers : ∀ j w, s.pool.workers[j]? = some w →
    WorkerInv a s.accepted s.submitted j (s.pool.queues[j]?.getD []) w

theorem inv_init {fds : FdTable β} (mem : μ) (hfree : fds.LowestFree a) :
    (init fds mem).Inv a fds.room where
  parent := FdTable.room_map (SocketFile.before (α := β)) fds ▸ ProcessPool.parentInv_init
  free _ _ := by
    refine ⟨fun i hi hnone => hfree.2 i hi ?_, ?_⟩
    · simpa [init, ProcessPool.init] using hnone
    · show ((fds.map SocketFile.before).map PoolFile.other).get a = none
      simp [hfree.1]
  taken hne := absurd rfl hne
  pos _ _ hpos := by cases hpos
  sockets _ _ hc := by cases hc
  tables _ _ hw := by cases hw
  queues _ hq := by cases hq
  workers _ _ hw := by cases hw

/-! ### The parent -/

/-- While the pool is being made nothing has been accepted, and the number of
the first connection is free or the read end of the pipe that is being made. -/
theorem Inv.making (hi : s.Inv a r) {pos : ParentPos} (hpos : s.pool.pos = pos)
    (hready : pos ≠ .ready) (hexit : pos ≠ .exited) :
    s.accepted = [] ∧ (∀ i < a, s.pool.fds.get i ≠ none) ∧
      match pos.making with
      | some (fd0, _) => fd0 = a
      | none => s.pool.fds.get a = none := by
  subst hpos
  have hnil : s.accepted = [] := by
    by_contra hne
    rcases hi.taken hne with heq | ⟨heq, -⟩
    · exact hexit heq
    · exact hready heq
  exact ⟨hnil, hi.free hnil hexit⟩

theorem getD_concat_nil (qs : List (List ClientTask)) (j : Nat) :
    (qs ++ [[]])[j]?.getD [] = qs[j]?.getD [] := by
  rcases Nat.lt_trichotomy j qs.length with hlt | rfl | hgt
  · rw [List.getElem?_append_left hlt]
  · rw [List.getElem?_concat_length, List.getElem?_eq_none (Nat.le_refl _)]
    rfl
  · rw [List.getElem?_eq_none (by simp; omega), List.getElem?_eq_none (by omega)]

theorem Inv.pipe (hi : s.Inv a r) (hpos : s.pool.pos = .creating)
    (hlt : s.pool.pipes.length < s.pool.numWorkers) {fd0 fd1 : Nat}
    {fds : FdTable (PoolFile (SocketFile β))}
    (hpipe : s.pool.fds.pipe (.readEnd s.pool.queues.length) (.writeEnd s.pool.queues.length)
      = some (fd0, fd1, fds)) :
    Inv a r { s with pool := { s.pool with
      fds := fds, pos := .piped fd0 fd1, queues := s.pool.queues ++ [[]] } } := by
  have hexit : s.pool.pos ≠ .exited := by
    rw [hpos]
    intro heq
    cases heq
  obtain ⟨hnil, hbelow, hfree⟩ := hi.making hpos (by decide) (by decide)
  have hfd0 : fd0 = a := (FdTable.lowestFree_pipe hpipe).unique ⟨hfree, hbelow⟩
  obtain ⟨-, hfree0, hfree1, -, -, hother⟩ := FdTable.get_pipe hpipe
  have hgrows : ∀ fd, s.pool.fds.get fd ≠ none → fds.get fd ≠ none := by
    intro fd hfd
    rw [hother fd (fun heq => hfd (heq ▸ hfree0)) (fun heq => hfd (heq ▸ hfree1))]
    exact hfd
  refine ⟨hi.parent.pipe hpos hlt hpipe, ?_, fun hne => absurd hnil hne, hi.pos, hi.sockets,
    ?_, ?_, ?_⟩
  · exact fun _ _ => ⟨fun i hia => hgrows i (hbelow i hia), hfd0⟩
  · intro _ w hw fd hfd hget
    exact hgrows fd (hi.tables hexit w hw fd hfd hget)
  · intro q hq
    rcases List.mem_append.mp hq with hold | hnew
    · exact hi.queues q hold
    · cases List.mem_singleton.mp hnew
      refine ⟨?_, ?_⟩ <;> intro t ht <;> cases ht
  · intro j w hw
    show WorkerInv a s.accepted s.submitted j ((s.pool.queues ++ [[]])[j]?.getD []) w
    rw [getD_concat_nil]
    exact hi.workers j w hw

theorem Inv.new_worker (hi : s.Inv a r) {fd0 fd1 : Nat} (hpos : s.pool.pos = .piped fd0 fd1)
    (q : List ClientTask) :
    WorkerInv a s.accepted s.submitted s.pool.pipes.length q
      ⟨s.pool.fds, s.pool.mem, .forked fd0 fd1⟩ := by
  obtain ⟨hget0, hget1⟩ := hi.parent.making fd0 fd1 (by rw [hpos]; rfl)
  obtain ⟨-, -, rfl⟩ := hi.making hpos (by intro heq; cases heq) (by intro heq; cases heq)
  refine ⟨fun _ _ heq => ?_, fun _ heq => (by cases heq), fun _ _ heq => (by cases heq)⟩
  cases heq
  refine ⟨rfl, ?_, hget0⟩
  rintro rfl
  cases hget0.symm.trans hget1

theorem Inv.fork (hi : s.Inv a r) {fd0 fd1 : Nat} (hpos : s.pool.pos = .piped fd0 fd1) :
    Inv a r { s with pool := { s.pool with
      pos := .forked fd0 fd1
      workers := s.pool.workers ++ [⟨s.pool.fds, s.pool.mem, .forked fd0 fd1⟩] } } := by
  have hexit : s.pool.pos ≠ .exited := by
    rw [hpos]
    intro heq
    cases heq
  obtain ⟨hnil, hfree⟩ := hi.making hpos (by intro heq; cases heq) (by intro heq; cases heq)
  have hcounts := hi.parent.counts
  simp only [ProcessPool.Counts, hpos] at hcounts
  refine ⟨hi.parent.fork hpos _, fun _ _ => hfree, fun hne => absurd hnil hne, hi.pos, ?_, ?_,
    hi.queues, ?_⟩
  · intro c fd hc
    simp only [hnil] at hc
    cases hc
  · intro _ w hw fd hfd hget
    rcases List.mem_append.mp hw with hold | hnew
    · exact hi.tables hexit w hold fd hfd hget
    · cases List.mem_singleton.mp hnew
      exact hget
  · intro j w hw
    rcases ProcessPool.getElem?_concat_cases hw with hold | ⟨rfl, rfl⟩
    · exact hi.workers j w hold
    · exact hcounts.1 ▸ hi.new_worker hpos _

theorem Inv.adopt (hi : s.Inv a r) {fd0 fd1 : Nat} (hpos : s.pool.pos = .forked fd0 fd1) :
    Inv a r { s with pool := { s.pool with
      fds := s.pool.fds.close fd0, pos := .creating, pipes := s.pool.pipes ++ [fd1] } } := by
  have hexit : s.pool.pos ≠ .exited := by
    rw [hpos]
    intro heq
    cases heq
  obtain ⟨hnil, hbelow, rfl⟩ :=
    hi.making hpos (by intro heq; cases heq) (by intro heq; cases heq)
  refine ⟨hi.parent.adopt hpos, fun _ _ => ⟨fun i hia => ?_, ?_⟩, fun hne => absurd hnil hne,
    hi.pos, hi.sockets, ?_, hi.queues, hi.workers⟩
  · show (s.pool.fds.close fd0).get i ≠ none
    rw [FdTable.get_close, if_neg (by omega)]
    exact hbelow i hia
  · show (s.pool.fds.close fd0).get fd0 = none
    rw [FdTable.get_close, if_pos rfl]
  · intro _ w hw fd hfd hget
    show (s.pool.fds.close fd0).get fd ≠ none
    rw [FdTable.get_close, if_neg hfd]
    exact hi.tables hexit w hw fd hfd hget

theorem Inv.create (hi : s.Inv a r) {c : CreateCall}
    {pool : ProcessPool ClientTask μ (SocketFile β)} (h : s.pool.create c = some pool) :
    Inv a r { s with pool := pool } := by
  have hparent := hi.parent.create h
  rcases ProcessPool.create_eq_some h with ⟨hpos, hlt, fd0, fd1, fds, hpipe, rfl⟩ |
    ⟨fd0, fd1, hpos, rfl⟩ | ⟨fd0, fd1, hpos, rfl⟩ | ⟨hpos, hall, rfl⟩ | rfl
  · exact hi.pipe hpos hlt hpipe
  · exact hi.fork hpos
  · exact hi.adopt hpos
  · obtain ⟨hnil, hfree⟩ := hi.making hpos (by decide) (by decide)
    exact ⟨hparent, fun _ _ => hfree, fun hne => absurd hnil hne, hi.pos, hi.sockets,
      fun _ => hi.tables (by rw [hpos]; decide), hi.queues, hi.workers⟩
  · exact ⟨hparent, fun _ hne => absurd rfl hne, fun _ => .inl rfl, hi.pos, hi.sockets,
      fun hne => absurd rfl hne, hi.queues, hi.workers⟩

theorem Known.mono {accepted accepted' : List Nat} {n n' : Nat} {t : ClientTask}
    (h : Known accepted n t) (hmore : accepted <+: accepted') (hle : n ≤ n') :
    Known accepted' n' t := by
  obtain ⟨hlt, hget⟩ := h
  obtain ⟨rest, rfl⟩ := hmore
  have hbound := (List.getElem?_eq_some_iff.mp hget).1
  exact ⟨Nat.lt_of_lt_of_le hlt hle, (List.getElem?_append_left hbound).trans hget⟩

theorem QueueInv.mono {accepted accepted' : List Nat} {n n' : Nat} {q : List ClientTask}
    (h : QueueInv accepted n q) (hmore : accepted <+: accepted') (hle : n ≤ n') :
    QueueInv accepted' n' q :=
  ⟨fun t ht => (h.known t ht).mono hmore hle, h.tail⟩

theorem WorkerInv.mono {accepted accepted' : List Nat} {n n' j : Nat} {q : List ClientTask}
    {w : Worker ClientTask μ (SocketFile β)} (h : WorkerInv a accepted n j q w)
    (hmore : accepted <+: accepted') (hle : n ≤ n') : WorkerInv a accepted' n' j q w where
  forked := h.forked
  looping fd hfd := (h.looping fd hfd).imp_right fun hor =>
    hor.imp_right fun ⟨hget, hpos, hrest⟩ => ⟨hget, Nat.lt_of_lt_of_le hpos hle, hrest⟩
  running fd t ht := (h.running fd t ht).imp_left fun hknown => hknown.mono hmore hle

/-- The first connection gets the number `a`, a later one a number that is free
in the parent and so in every worker. -/
theorem Inv.accept (hi : s.Inv a r) (hready : s.pool.pos = .ready) (hpos : s.pos = .accepting)
    {fd : Nat} {fds : FdTable (PoolFile (SocketFile β))}
    (halloc : s.pool.fds.alloc (.other (.client s.accepted.length)) = some (fd, fds)) :
    Inv a r
      { pool := { s.pool with fds := fds }
        pos := .submitting fd s.accepted.length
        accepted := s.accepted ++ [fd] } := by
  have hexit : s.pool.pos ≠ .exited := by rw [hready]; decide
  have hsubmitted : s.submitted = s.accepted.length := by simp only [submitted, hpos]
  have hlowest := FdTable.lowestFree_alloc halloc
  have hgrows : ∀ fd', s.pool.fds.get fd' ≠ none → fds.get fd' ≠ none := by
    intro fd' hget
    rw [FdTable.get_alloc halloc]
    split
    · intro heq
      cases heq
    · exact hget
  have hfirst : s.accepted = [] → fd = a := fun hnil => by
    have hfree := hi.free hnil hexit
    simp only [hready, ParentPos.making] at hfree
    exact hlowest.unique ⟨hfree.2, hfree.1⟩
  have hlater : s.accepted ≠ [] → s.pool.fds.get a ≠ none := fun hne =>
    ((hi.taken hne).resolve_left hexit).2
  refine ⟨hi.parent.alloc hready halloc, ?_, ?_, ?_, ?_, ?_, ?_, ?_⟩
  · intro hnil
    exact absurd hnil (by simp)
  · intro _
    refine .inr ⟨hready, ?_⟩
    show fds.get a ≠ none
    by_cases hnil : s.accepted = []
    · rw [← hfirst hnil, FdTable.get_alloc halloc, if_pos rfl]
      intro heq
      cases heq
    · exact hgrows a (hlater hnil)
  · intro fd' c heq
    cases heq
    exact ⟨by simp, List.getElem?_concat_length⟩
  · intro c fd' hc
    rcases ProcessPool.getElem?_concat_cases hc with hold | ⟨rfl, rfl⟩
    · exact hi.sockets c fd' hold
    · by_cases hnil : s.accepted = []
      · exact .inl ⟨by rw [hnil]; rfl, hfirst hnil⟩
      · have hne : fd' ≠ a := by
          rintro rfl
          exact hlater hnil hlowest.1
        refine .inr ⟨fun hzero => hnil (List.length_eq_zero_iff.mp hzero), hne, ?_⟩
        intro w hw
        by_contra hget
        exact hi.tables hexit w hw fd' hne hget hlowest.1
  · intro _ w hw fd' hne hget
    exact hgrows fd' (hi.tables hexit w hw fd' hne hget)
  · intro q hq
    exact (hi.queues q hq).mono (List.prefix_append ..) (Nat.le_of_eq hsubmitted)
  · intro j w hw
    exact (hi.workers j w hw).mono (List.prefix_append ..) (Nat.le_of_eq hsubmitted)

/-- Another task in a pipe; it is the first one there or not the first of all. -/
theorem QueueInv.concat {accepted : List Nat} {n : Nat} {q : List ClientTask} {t : ClientTask}
    (h : QueueInv accepted n q) (hn : t.connection = n)
    (hget : accepted[n]? = some t.clientSocket) : QueueInv accepted (n + 1) (q ++ [t]) := by
  refine ⟨fun t' ht' => ?_, fun t' ht' => ?_⟩
  · rcases List.mem_append.mp ht' with hold | hnew
    · exact (h.known t' hold).mono List.prefix_rfl (Nat.le_succ n)
    · cases List.mem_singleton.mp hnew
      exact ⟨by omega, hn ▸ hget⟩
  · rcases q with _ | ⟨t₀, q⟩
    · cases ht'
    · have hpos : 0 < n := Nat.lt_of_le_of_lt (Nat.zero_le _) (h.known t₀ List.mem_cons_self).1
      rcases List.mem_append.mp ht' with hold | hnew
      · exact h.tail t' hold
      · cases List.mem_singleton.mp hnew
        omega

theorem WorkerInv.concat {accepted : List Nat} {n j : Nat} {q : List ClientTask} {t : ClientTask}
    {w : Worker ClientTask μ (SocketFile β)} (h : WorkerInv a accepted n j q w)
    (hn : t.connection = n) : WorkerInv a accepted (n + 1) j (q ++ [t]) w where
  forked := h.forked
  looping fd hfd := by
    refine (h.looping fd hfd).imp_right fun hor => hor.imp_right ?_
    rintro ⟨hget, hpos, hqueue, hrunning⟩
    refine ⟨hget, Nat.succ_pos n, fun t' ht' => ?_, hrunning⟩
    rcases List.mem_append.mp ht' with hold | hnew
    · exact hqueue t' hold
    · cases List.mem_singleton.mp hnew
      omega
  running fd t₀ ht₀ := by
    obtain ⟨hknown, hqueue⟩ := h.running fd t₀ ht₀
    refine ⟨hknown.mono List.prefix_rfl (Nat.le_succ n), fun t' ht' => ?_⟩
    rcases List.mem_append.mp ht' with hold | hnew
    · exact hqueue t' hold
    · cases List.mem_singleton.mp hnew
      have hlt := hknown.1
      omega

theorem Inv.submit [DecidableEq β] (hi : s.Inv a r) {fd c : Nat} (hpos : s.pos = .submitting fd c)
    {pool : ProcessPool ClientTask μ (SocketFile β)}
    (h : s.pool.submit ⟨fd, c, .reading⟩ = some pool) :
    Inv a r { s with pool := pool, pos := .accepting } := by
  obtain ⟨hlength, hget⟩ := hi.pos fd c hpos
  have hparent := hi.parent.submit h
  have hsubmitted : s.submitted = c := by simp only [submitted, hpos]
  have hne : s.accepted ≠ [] := fun hnil => by
    rw [hnil] at hlength
    cases hlength
  have hqueues := hi.queues
  have hworkers := hi.workers
  rw [hsubmitted] at hqueues hworkers
  have hgrown : ∀ q ∈ s.pool.queues, QueueInv s.accepted s.accepted.length q := fun q hq =>
    (hqueues q hq).mono List.prefix_rfl (by omega)
  have hgrown' : ∀ j w, s.pool.workers[j]? = some w →
      WorkerInv a s.accepted s.accepted.length j (s.pool.queues[j]?.getD []) w := fun j w hw =>
    (hworkers j w hw).mono List.prefix_rfl (by omega)
  obtain ⟨next, ⟨p, rfl⟩ | rfl | rfl⟩ := ProcessPool.submit_eq_some h
  · refine ⟨hparent, fun hnil => absurd hnil hne, hi.taken, fun _ _ heq => (by cases heq),
      hi.sockets, hi.tables, ?_, ?_⟩
    · intro q hq
      obtain ⟨j, hj⟩ := List.mem_iff_getElem?.mp hq
      simp only [List.getElem?_modify] at hj
      obtain ⟨q₀, hq₀, rfl⟩ := Option.map_eq_some_iff.mp hj
      have hmem := List.mem_of_getElem? hq₀
      show QueueInv s.accepted s.accepted.length _
      split
      · exact hlength ▸ (hqueues q₀ hmem).concat rfl hget
      · exact hgrown q₀ hmem
    · intro j w hw
      show WorkerInv a s.accepted s.accepted.length j
        ((s.pool.queues.modify p (· ++ [⟨fd, c, .reading⟩]))[j]?.getD []) w
      rw [List.getElem?_modify]
      cases hq : s.pool.queues[j]? with
      | none =>
          have hold := hgrown' j w hw
          rw [hq] at hold
          exact hold
      | some q =>
          have hold := hworkers j w hw
          simp only [hq, Option.getD_some] at hold
          show WorkerInv a s.accepted s.accepted.length j
            (if p = j then q ++ [⟨fd, c, .reading⟩] else q) w
          split
          · exact hlength ▸ hold.concat rfl
          · simpa only [hq, Option.getD_some] using hgrown' j w hw
  · exact ⟨hparent, fun hnil => absurd hnil hne, hi.taken, fun _ _ heq => (by cases heq),
      hi.sockets, hi.tables, hgrown, hgrown'⟩
  · exact ⟨hparent, fun hnil => absurd hnil hne, fun _ => .inl rfl, fun _ _ heq => (by cases heq),
      hi.sockets, fun hexit => absurd rfl hexit, hgrown, hgrown'⟩

/-! ### The workers -/

/-- Worker `i` has changed, and perhaps what is in its own pipe; it has opened
nothing. -/
theorem Inv.setWorker (hi : s.Inv a r) {i : Nat} {w w' : Worker ClientTask μ (SocketFile β)}
    {queues : List (List ClientTask)} (hw : s.pool.workers[i]? = some w)
    (hshrinks : ∀ fd, w.fds.get fd = none → w'.fds.get fd = none)
    (hlength : queues.length = s.pool.queues.length)
    (hother : ∀ j, j ≠ i → queues[j]? = s.pool.queues[j]?)
    (hqueue : ∀ q, queues[i]? = some q → QueueInv s.accepted s.submitted q)
    (hworker : WorkerInv a s.accepted s.submitted i (queues[i]?.getD []) w') :
    Inv a r { s with pool := { s.pool with queues := queues }.setWorker i w' } := by
  have hmem : ∀ w₁ ∈ s.pool.workers.set i w', w₁ = w' ∨ w₁ ∈ s.pool.workers := fun w₁ hw₁ =>
    (List.mem_or_eq_of_mem_set hw₁).symm
  refine ⟨hi.parent.congr rfl rfl rfl rfl (List.length_set ..) hlength, hi.free, hi.taken, hi.pos,
    ?_, ?_, ?_, ?_⟩
  · intro c fd hc
    refine (hi.sockets c fd hc).imp_right fun ⟨hne, hfd, hall⟩ => ⟨hne, hfd, fun w₁ hw₁ => ?_⟩
    rcases hmem w₁ hw₁ with rfl | hold
    · exact hshrinks fd (hall w (List.mem_of_getElem? hw))
    · exact hall w₁ hold
  · intro hexit w₁ hw₁ fd hfd hget
    rcases hmem w₁ hw₁ with rfl | hold
    · exact hi.tables hexit w (List.mem_of_getElem? hw) fd hfd fun hnone =>
        hget (hshrinks fd hnone)
    · exact hi.tables hexit w₁ hold fd hfd hget
  · intro q hq
    obtain ⟨j, hj⟩ := List.mem_iff_getElem?.mp hq
    by_cases hji : j = i
    · exact hqueue q (hji ▸ hj)
    · exact hi.queues q (List.mem_of_getElem? ((hother j hji).symm.trans hj))
  · intro j w₁ hj
    rcases ProcessPool.getElem?_set_cases hj with ⟨rfl, rfl⟩ | ⟨hji, hold⟩
    · exact hworker
    · show WorkerInv a s.accepted s.submitted j (queues[j]?.getD []) w₁
      rw [hother j hji]
      exact hi.workers j w₁ hold

theorem Inv.setWorker_only (hi : s.Inv a r) {i : Nat} {w w' : Worker ClientTask μ (SocketFile β)}
    (hw : s.pool.workers[i]? = some w) (hshrinks : ∀ fd, w.fds.get fd = none → w'.fds.get fd = none)
    (hworker : WorkerInv a s.accepted s.submitted i (s.pool.queues[i]?.getD []) w') :
    Inv a r { s with pool := s.pool.setWorker i w' } :=
  hi.setWorker hw hshrinks rfl (fun _ _ => rfl)
    (fun q hq => hi.queues q (List.mem_of_getElem? hq)) hworker

theorem QueueInv.drop {accepted : List Nat} {n : Nat} {q : List ClientTask}
    (h : QueueInv accepted n q) (k : Nat) : QueueInv accepted n (q.drop k) := by
  refine ⟨fun t ht => h.known t (List.mem_of_mem_drop ht), fun t ht => ?_⟩
  rw [List.tail_drop, ← List.drop_tail] at ht
  exact h.tail t (List.mem_of_mem_drop ht)

theorem Inv.takes (hi : s.Inv a r) {i : Nat} {w : Worker ClientTask μ (SocketFile β)}
    {q : List ClientTask} (k : Nat) {pos : WorkerPos ClientTask}
    (hw : s.pool.workers[i]? = some w) (hqueue : s.pool.queues[i]? = some q)
    (hworker : WorkerInv a s.accepted s.submitted i (q.drop k) { w with pos }) :
    Inv a r { s with pool :=
      { s.pool with queues := s.pool.queues.set i (q.drop k) }.setWorker i { w with pos } } := by
  have hlt := (List.getElem?_eq_some_iff.mp hqueue).1
  refine hi.setWorker hw (fun _ hnone => hnone) (List.length_set ..)
    (fun j hj => List.getElem?_set_ne (Ne.symm hj)) ?_ ?_
  · intro q' hq'
    rw [List.getElem?_set_self hlt] at hq'
    cases hq'
    exact (hi.queues q (List.mem_of_getElem? hqueue)).drop k
  · rw [List.getElem?_set_self hlt]
    exact hworker

theorem close_shrinks (w : Worker ClientTask μ (SocketFile β)) (fd fd' : Nat)
    (h : w.fds.get fd' = none) : (w.fds.close fd).get fd' = none := by
  rw [FdTable.get_close]
  split
  · rfl
  · exact h

/-- What a task that runs finds in its worker: the first connection's has the
worker's pipe under its number, and any other has nothing. -/
theorem Inv.finds (hi : s.Inv a r) {i readFd : Nat} {w : Worker ClientTask μ (SocketFile β)}
    {task : ClientTask} (hw : s.pool.workers[i]? = some w) (hpos : w.pos = .running readFd task) :
    readFd = a ∧ ((task.connection = 0 ∧ task.clientSocket = a ∧ w.fds.get a = some (.readEnd i)) ∨
      (task.connection ≠ 0 ∧ task.clientSocket ≠ a ∧ w.fds.get task.clientSocket = none)) := by
  have hworker := hi.workers i w hw
  obtain ⟨rfl, hpipe⟩ := hworker.looping readFd (by rw [hpos]; rfl)
  obtain ⟨⟨-, hget⟩, -⟩ := hworker.running readFd task hpos
  refine ⟨rfl, ?_⟩
  rcases hi.sockets _ _ hget with ⟨hzero, hfd⟩ | ⟨hne, hfd, hall⟩
  · rcases hpipe with hopen | ⟨-, -, -, hnot⟩
    · exact .inl ⟨hzero, hfd, hopen⟩
    · exact absurd hzero (hnot task hpos)
  · exact .inr ⟨hne, hfd, hall w (List.mem_of_getElem? hw)⟩

/-- A task goes on: it is the same task, and the pipe holds no more than before. -/
theorem WorkerInv.goes {accepted : List Nat} {n j readFd : Nat} {q q' : List ClientTask}
    {w : Worker ClientTask μ (SocketFile β)} {task : ClientTask} (pos : HandlePos)
    (h : WorkerInv a accepted n j q w) (hpos : w.pos = .running readFd task)
    (hsub : ∀ t ∈ q', t ∈ q) :
    WorkerInv a accepted n j q' { w with pos := .running readFd { task with pos := pos } } := by
  obtain ⟨hknown, hbehind⟩ := h.running readFd task hpos
  refine ⟨fun _ _ heq => (by cases heq), fun fd hfd => ?_, fun fd t heq => ?_⟩
  · cases hfd
    refine (h.looping readFd (by rw [hpos]; rfl)).imp_right fun hor => hor.imp_right ?_
    rintro ⟨hget, hn, hqueue, hrunning⟩
    refine ⟨hget, hn, fun t ht => hqueue t (hsub t ht), fun t heq => ?_⟩
    cases heq
    exact hrunning task hpos
  · cases heq
    exact ⟨hknown, fun t ht => hbehind t (hsub t ht)⟩

/-- A task returns and has closed its number: the pipe itself if it is the first
connection's, which no task in the pipe is then. -/
theorem WorkerInv.returns {accepted : List Nat} {n j readFd : Nat} {q : List ClientTask}
    {w : Worker ClientTask μ (SocketFile β)} {task : ClientTask}
    (h : WorkerInv a accepted n j q w) (hpos : w.pos = .running readFd task) :
    WorkerInv a accepted n j q
      { w with fds := w.fds.close task.clientSocket, pos := .reading readFd } := by
  obtain ⟨hknown, hbehind⟩ := h.running readFd task hpos
  have hn : 0 < n := Nat.lt_of_le_of_lt (Nat.zero_le _) hknown.1
  refine ⟨fun _ _ heq => (by cases heq), fun fd hfd => ?_, fun _ _ heq => (by cases heq)⟩
  cases hfd
  obtain ⟨hfd, hpipe⟩ := h.looping readFd (by rw [hpos]; rfl)
  refine ⟨hfd, ?_⟩
  by_cases hsame : a = task.clientSocket
  · refine .inr ⟨?_, hn, hbehind, fun _ heq => (by cases heq)⟩
    show (w.fds.close task.clientSocket).get a = none
    rw [FdTable.get_close, if_pos hsame]
  · have hget : (w.fds.close task.clientSocket).get a = w.fds.get a := by
      rw [FdTable.get_close, if_neg hsame]
    show (w.fds.close task.clientSocket).get a = _ ∨ (w.fds.close task.clientSocket).get a = _ ∧ _
    rw [hget]
    exact hpipe.imp_right fun ⟨hnone, _, hqueue, _⟩ =>
      ⟨hnone, hn, hqueue, fun _ heq => (by cases heq)⟩

theorem WorkerInv.enter {accepted : List Nat} {n j fd0 fd1 : Nat} {q : List ClientTask}
    {w : Worker ClientTask μ (SocketFile β)} (h : WorkerInv a accepted n j q w)
    (hpos : w.pos = .forked fd0 fd1) :
    WorkerInv a accepted n j q { w with fds := w.fds.close fd1, pos := .reading fd0 } := by
  obtain ⟨hfd0, hfd1, hget⟩ := h.forked fd0 fd1 hpos
  refine ⟨fun _ _ heq => (by cases heq), fun fd hfd => ?_, fun _ _ heq => (by cases heq)⟩
  cases hfd
  refine ⟨hfd0, .inl ?_⟩
  show (w.fds.close fd1).get a = _
  rw [FdTable.get_close, if_neg hfd1.symm, hget]

theorem WorkerInv.outside {accepted : List Nat} {n j : Nat} {q : List ClientTask}
    {w : Worker ClientTask μ (SocketFile β)} (hpos : w.pos = .exiting ∨ w.pos = .exited) :
    WorkerInv a accepted n j q w := by
  refine ⟨fun _ _ heq => ?_, fun _ heq => ?_, fun _ _ heq => ?_⟩ <;>
    rcases hpos with hpos | hpos <;> rw [hpos] at heq <;> cases heq

theorem WorkerInv.ends {accepted : List Nat} {n j readFd : Nat} {q : List ClientTask}
    {w : Worker ClientTask μ (SocketFile β)} (h : WorkerInv a accepted n j q w)
    (hpos : w.pos = .reading readFd) :
    WorkerInv a accepted n j q { w with pos := .closing readFd } := by
  refine ⟨fun _ _ heq => (by cases heq), fun fd hfd => ?_, fun _ _ heq => (by cases heq)⟩
  cases hfd
  refine (h.looping readFd (by rw [hpos]; rfl)).imp_right fun hor => hor.imp_right ?_
  rintro ⟨hget, hn, hqueue, -⟩
  exact ⟨hget, hn, hqueue, fun _ heq => (by cases heq)⟩

theorem Inv.handleClient [DecidableEq β] (hi : s.Inv a r) {i readFd : Nat}
    {w : Worker ClientTask μ (SocketFile β)} {task : ClientTask} {bytesRead : Int}
    (hw : s.pool.workers[i]? = some w) (hpos : w.pos = .running readFd task)
    {pool : ProcessPool ClientTask μ (SocketFile β)}
    (h : ProcessPool.handleClient bytesRead s.pool i w readFd task = some pool) :
    Inv a r { s with pool := pool } := by
  have hworker := hi.workers i w hw
  have hgoes : ∀ b : Int, Inv a r
      { s with pool :=
        match task.pos.next b with
        | some pos => s.pool.setWorker i { w with pos := .running readFd { task with pos := pos } }
        | none => s.pool.setWorker i
            { w with fds := w.fds.close task.clientSocket, pos := .reading readFd } } := by
    intro b
    cases task.pos.next b with
    | some pos =>
        exact hi.setWorker_only hw (fun _ hnone => hnone) (hworker.goes pos hpos fun _ ht => ht)
    | none => exact hi.setWorker_only hw (close_shrinks w _) (hworker.returns hpos)
  unfold ProcessPool.handleClient at h
  dsimp only at h
  split at h
  · split at h
    · rename_i p hget
      split at h
      · rename_i t ts hqueue
        cases h
        -- only the first connection's task finds a pipe, and it is the worker's own
        have hp : p = i := by
          rcases (hi.finds hw hpos).2 with ⟨-, hfd, hopen⟩ | ⟨-, -, hnone⟩
          · rw [hfd, hopen] at hget
            cases hget
            rfl
          · rw [hnone] at hget
            cases hget
        subst hp
        rw [hqueue] at hworker
        exact hi.takes touchedTasks hw hqueue
          (hworker.goes .writing hpos fun t' ht' => List.mem_of_mem_drop ht')
      · split at h
        · cases h
        · cases h
          exact hgoes 0
    · cases h
      exact hgoes bytesRead
    · cases h
      exact hgoes (-1)
  · cases h
    exact hgoes bytesRead

theorem Inv.worker [DecidableEq β] (hi : s.Inv a r) {i : Nat} {bytesRead : Int}
    {pool : ProcessPool ClientTask μ (SocketFile β)}
    (h : s.pool.worker (ProcessPool.handleClient bytesRead) i = some pool) :
    Inv a r { s with pool := pool } := by
  obtain ⟨w, hw, hcases⟩ := ProcessPool.worker_eq_some h
  have hworker := hi.workers i w hw
  rcases hcases with ⟨fd0, fd1, hpos, rfl⟩ | ⟨readFd, hpos, hread⟩ | ⟨readFd, task, hpos, hexec⟩ |
    ⟨readFd, hpos, rfl⟩ | ⟨hpos, rfl⟩
  · exact hi.setWorker_only hw (close_shrinks w _) (hworker.enter hpos)
  · rcases ProcessPool.read_eq_some hread with ⟨p, task, rest, hget, hqueue, rfl⟩ | ⟨rfl, -⟩
    · obtain ⟨rfl, hpipe⟩ := hworker.looping readFd (by rw [hpos]; rfl)
      have hp : p = i := by
        rcases hpipe with hopen | ⟨hnone, -⟩
        · rw [hopen] at hget
          cases hget
          rfl
        · rw [hnone] at hget
          cases hget
      subst hp
      have hqueueInv := hi.queues _ (List.mem_of_getElem? hqueue)
      refine hi.takes 1 hw hqueue ?_
      refine ⟨fun _ _ heq => (by cases heq), fun fd hfd => ?_, fun fd t heq => ?_⟩
      · cases hfd
        exact ⟨rfl, .inl hget⟩
      · cases heq
        exact ⟨hqueueInv.known task List.mem_cons_self, hqueueInv.tail⟩
    · exact hi.setWorker_only hw (fun _ hnone => hnone) (hworker.ends hpos)
  · exact hi.handleClient hw hpos hexec
  · exact hi.setWorker_only hw (close_shrinks w _) (WorkerInv.outside (.inl rfl))
  · exact hi.setWorker_only hw (fun _ _ => rfl) (WorkerInv.outside (.inr rfl))

/-! ## Which connection is served -/

theorem Inv.step [DecidableEq β] (hi : s.Inv a r) {e : HttpEvent} (h : s.step e = some s') :
    s'.Inv a r := by
  cases e with
  | create c =>
      obtain ⟨pool, hpool, rfl⟩ := Option.map_eq_some_iff.mp h
      exact hi.create hpool
  | accept ok =>
      simp only [HttpServer.step] at h
      split at h
      · rename_i hpos
        split at h
        · obtain ⟨⟨fd, fds⟩, halloc, rfl⟩ := Option.map_eq_some_iff.mp h
          exact hi.accept hpos.1 hpos.2 halloc
        · cases h
          exact hi
      · cases h
  | submit =>
      simp only [HttpServer.step] at h
      split at h
      · rename_i fd c hpos
        split at h
        · obtain ⟨pool, hpool, rfl⟩ := Option.map_eq_some_iff.mp h
          exact hi.submit hpos hpool
        · cases h
      · cases h
  | worker i bytesRead =>
      obtain ⟨pool, hpool, rfl⟩ := Option.map_eq_some_iff.mp h
      exact hi.worker hpool

/-- Wherever a worker runs the task of a connection, the number that it holds is
not that connection's socket there: for the first connection it is the worker's
own task pipe, and for any other there is nothing under it. -/
theorem serves_no_connection [DecidableEq β] (fds : FdTable β) (mem : μ) {es : List HttpEvent}
    (h : run step (init fds mem) es = some s) {i readFd : Nat}
    {w : Worker ClientTask μ (SocketFile β)} {task : ClientTask}
    (hw : s.pool.workers[i]? = some w) (hpos : w.pos = .running readFd task) :
    w.fds.get task.clientSocket ≠ some (.other (.client task.connection)) ∧
      (task.connection = 0 →
        task.clientSocket = readFd ∧ w.fds.get readFd = some (.readEnd i)) ∧
      (task.connection ≠ 0 → w.fds.get task.clientSocket = none) := by
  obtain ⟨a, hfree⟩ := fds.exists_lowestFree
  have hi : s.Inv a fds.room := run_invariant (P := fun s => s.Inv a fds.room)
    (fun _ _ _ hs hstep => hs.step hstep) h (inv_init mem hfree)
  obtain ⟨rfl, hfinds⟩ := hi.finds hw hpos
  rcases hfinds with ⟨hzero, hfd, hopen⟩ | ⟨hne, hfd, hnone⟩
  · refine ⟨?_, fun _ => ⟨hfd, hopen⟩, fun hne => absurd hzero hne⟩
    rw [hfd, hopen]
    intro heq
    cases heq
  · refine ⟨?_, fun hzero => absurd hzero hne, fun _ => hnone⟩
    rw [hnone]
    intro heq
    cases heq

/-- Standard input, output and error, the listening socket, and room for eight
more files. -/
def listeningFds : FdTable Nat :=
  ⟨[some 0, some 1, some 2, some 3, none, none, none, none, none, none, none, none]⟩

/-- The pool is made, and the first connection is handed over to worker 0. -/
def firstConnection : List HttpEvent :=
  [.create (.pipe true), .create (.fork true), .create .adopt,
    .create (.pipe true), .create (.fork true), .create .adopt,
    .create (.pipe true), .create (.fork true), .create .adopt,
    .create (.pipe true), .create (.fork true), .create .adopt, .create .done,
    .accept true, .submit, .worker 0 0, .worker 0 0]

/-- Worker 0 after these events: it runs the task, which holds the number 4. -/
theorem firstConnection_worker :
    (run step (init listeningFds ()) firstConnection).bind (fun s => s.pool.workers[0]?.map
      fun w => (w.pos, w.fds.get 4)) =
        some (.running 4 ⟨4, 0, .reading⟩, some (.readEnd 0)) := by
  decide

theorem serves_no_connection_first : ∃ (s : HttpServer Unit Nat)
    (w : Worker ClientTask Unit (SocketFile Nat)),
    run step (init listeningFds ()) firstConnection = some s ∧ s.pool.workers[0]? = some w ∧
      w.pos = .running 4 ⟨4, 0, .reading⟩ ∧
      w.fds.get 4 ≠ some (.other (.client 0)) ∧
      (0 = 0 → 4 = 4 ∧ w.fds.get 4 = some (.readEnd 0)) ∧ (0 ≠ 0 → w.fds.get 4 = none) := by
  obtain ⟨s, hrun, hs⟩ := Option.bind_eq_some_iff.mp firstConnection_worker
  obtain ⟨w, hw, heq⟩ := Option.map_eq_some_iff.mp hs
  have hpos : w.pos = .running 4 ⟨4, 0, .reading⟩ := congrArg Prod.fst heq
  exact ⟨s, w, hrun, hw, hpos, serves_no_connection listeningFds () hrun hw hpos⟩

/-- The task of the first connection is about to read from the pipe that it came
out of. -/
theorem not_every_connection_served :
    ¬ ∀ (es : List HttpEvent) (s : HttpServer Unit Nat) (i readFd : Nat)
      (w : Worker ClientTask Unit (SocketFile Nat)) (task : ClientTask),
      run step (init listeningFds ()) es = some s → s.pool.workers[i]? = some w →
        w.pos = .running readFd task →
          w.fds.get task.clientSocket = some (.other (.client task.connection)) := by
  intro h
  obtain ⟨s, hrun, hs⟩ := Option.bind_eq_some_iff.mp firstConnection_worker
  obtain ⟨w, hw, heq⟩ := Option.map_eq_some_iff.mp hs
  have hget := h firstConnection s 0 4 w ⟨4, 0, .reading⟩ hrun hw (congrArg Prod.fst heq)
  have hpipe : w.fds.get 4 = some (.readEnd 0) := congrArg Prod.snd heq
  rw [hpipe] at hget
  cases hget

end HttpServer

end CppDemos
