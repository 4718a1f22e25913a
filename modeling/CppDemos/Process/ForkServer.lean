import CppDemos.Lib.FdTable
import CppDemos.Lib.Machine

/-!
# A process for each connection

`main` of `3http_server.cpp` from its loop on: the parent accepts, forks and
closes its copy of the client's socket; a child closes the listening socket,
answers and exits; `reapZombies` collects dead children. Children run and die
at any time. SIGCHLD is one pending bit: a child that dies sets it, its delivery
clears it and starts the handler, and it is not delivered while the handler
runs, which is also when the parent does nothing else.

A dead child that has not been collected leaves the bit set or the handler in
its loop, and the table of the parent less the socket that it is about to close
is the table it began with.
-/

namespace CppDemos

open Machine

/-! ## The server -/

/-- An open file: the socket of a connection, or what was open before. -/
inductive SocketFile (α : Type) where
  | client (connection : Nat)
  | before (file : α)
deriving DecidableEq, Repr

/-- Where `handleClient` is: at `read`, at `write`, and at either `close`. -/
inductive HandlePos where
  | reading
  | writing
  | closing
deriving DecidableEq, Repr

/-- Where `handleClient` goes after a call; `bytesRead` is what `read` returns. -/
def HandlePos.next (bytesRead : Int) : HandlePos → Option HandlePos
  | .reading => if bytesRead < 0 then some .closing else some .writing
  | .writing => some .closing
  | .closing => none

/-- Where a child is: at `close(serverSocket)`, in `handleClient`, and at
`exit`. -/
inductive ChildPos where
  | forked
  | handling (pos : HandlePos)
  | exiting
deriving DecidableEq, Repr

structure Child (α : Type) where
  pid : Nat
  fds : FdTable (SocketFile α)
  clientSocket : Nat
  pos : ChildPos

/-- Where `main` is: at `accept`, at `fork`, and at the `close` of either
branch behind it. -/
inductive MainPos where
  | accepting
  | accepted (clientSocket : Nat)
  | forkFailed (clientSocket : Nat)
  | forked (clientSocket : Nat)
deriving DecidableEq, Repr

/-- Where `reapZombies` is: not called, at `waitpid`, or past its loop. -/
inductive HandlerPos where
  | idle
  | reaping
  | returning
deriving DecidableEq, Repr

/-- The dead children that have not been collected, and SIGCHLD with its
handler. -/
structure Reaper where
  handler : HandlerPos := .idle
  pending : Bool := false
  zombies : List Nat := []
deriving DecidableEq, Repr

/-- The delivery of SIGCHLD, `waitpid` in the handler with its result (`none`
for 0 and -1), and the return from the handler. -/
inductive ReapCall where
  | deliver
  | waitpid (pid : Option Nat)
  | leave

def Reaper.reapZombies (r : Reaper) : ReapCall → Option Reaper
  | .deliver =>
      if r.pending = true ∧ r.handler = .idle then
        some { r with pending := false, handler := .reaping }
      else none
  | .waitpid (some pid) =>
      if r.handler = .reaping ∧ pid ∈ r.zombies then
        some { r with zombies := r.zombies.erase pid }
      else none
  | .waitpid none =>
      -- with WNOHANG, so there is no child that could be collected
      if r.handler = .reaping ∧ r.zombies = [] then some { r with handler := .returning } else none
  | .leave => if r.handler = .returning then some { r with handler := .idle } else none

def Reaper.died (r : Reaper) (pid : Nat) : Reaper :=
  { r with zombies := r.zombies ++ [pid], pending := true }

structure ForkServer (α : Type) where
  serverSocket : Nat
  fds : FdTable (SocketFile α)
  pos : MainPos := .accepting
  reaper : Reaper := {}
  children : List (Child α) := []

/-- The calls of `main` in its loop, with what `accept` and `fork` return. -/
inductive MainCall where
  | accept (connection : Option Nat)
  | fork (pid : Option Nat)
  | close

/-- A call of `main`, of the handler or of a child, or the end of a child;
`bytesRead` is what its `read` returns. -/
inductive ServerEvent where
  | main (c : MainCall)
  | reap (c : ReapCall)
  | child (pid : Nat) (bytesRead : Int)
  | exit (pid : Nat)

def Child.next {α : Type} (serverSocket : Nat) (bytesRead : Int) (ch : Child α) : Child α :=
  match ch.pos with
  | .forked => { ch with fds := ch.fds.close serverSocket, pos := .handling .reading }
  | .handling pos =>
      match pos.next bytesRead with
      | some pos => { ch with pos := .handling pos }
      | none => { ch with fds := ch.fds.close ch.clientSocket, pos := .exiting }
  | .exiting => ch

namespace ForkServer

variable {α : Type}

def Taken (s : ForkServer α) (pid : Nat) : Prop :=
  pid ∈ s.reaper.zombies ∨ ∃ ch ∈ s.children, ch.pid = pid

instance (s : ForkServer α) (pid : Nat) : Decidable (s.Taken pid) :=
  inferInstanceAs (Decidable (_ ∨ _))

def main (s : ForkServer α) (c : MainCall) : Option (ForkServer α) :=
  match s.pos, c with
  | .accepting, .accept none => some s
  | .accepting, .accept (some connection) =>
      (s.fds.alloc (.client connection)).map fun (clientSocket, fds) =>
        { s with fds := fds, pos := .accepted clientSocket }
  | .accepted clientSocket, .fork none => some { s with pos := .forkFailed clientSocket }
  | .accepted clientSocket, .fork (some pid) =>
      if s.Taken pid then none
      else
        some
          { s with
            pos := .forked clientSocket
            children := ⟨pid, s.fds, clientSocket, .forked⟩ :: s.children }
  | .forkFailed clientSocket, .close =>
      some { s with fds := s.fds.close clientSocket, pos := .accepting }
  | .forked clientSocket, .close =>
      some { s with fds := s.fds.close clientSocket, pos := .accepting }
  | _, _ => none

def step (s : ForkServer α) : ServerEvent → Option (ForkServer α)
  | .main c => if s.reaper.handler = .idle then s.main c else none
  | .reap c => (s.reaper.reapZombies c).map fun reaper => { s with reaper := reaper }
  | .child pid bytesRead =>
      some
        { s with
          children := s.children.map fun ch =>
            if ch.pid = pid then ch.next s.serverSocket bytesRead else ch }
  | .exit pid =>
      if ∃ ch ∈ s.children, ch.pid = pid then
        some
          { s with
            children := s.children.filter (·.pid ≠ pid)
            reaper := s.reaper.died pid }
      else none

def init (serverSocket : Nat) (fds : FdTable (SocketFile α)) : ForkServer α where
  serverSocket := serverSocket
  fds := fds

/-! ## What the parent keeps -/

/-- The parent's table without the socket that it has still to close. -/
def kept (s : ForkServer α) : FdTable (SocketFile α) :=
  match s.pos with
  | .accepting => s.fds
  | .accepted clientSocket | .forkFailed clientSocket | .forked clientSocket =>
      s.fds.close clientSocket

end ForkServer

/-- Dead children are on their way to be collected. -/
def Reaper.Reaping (r : Reaper) : Prop :=
  r.zombies ≠ [] → r.pending = true ∨ r.handler = .reaping

theorem Reaper.reaping_reapZombies {r r' : Reaper} {c : ReapCall} (h : r.Reaping)
    (hstep : r.reapZombies c = some r') : r'.Reaping := by
  cases c with
  | deliver =>
      simp only [reapZombies] at hstep
      split at hstep
      · cases hstep
        exact fun _ => .inr rfl
      · cases hstep
  | waitpid pid =>
      cases pid with
      | some pid =>
          simp only [reapZombies] at hstep
          split at hstep
          · rename_i hpos
            cases hstep
            exact fun _ => .inr hpos.1
          · cases hstep
      | none =>
          simp only [reapZombies] at hstep
          split at hstep
          · rename_i hpos
            cases hstep
            exact fun hne => absurd hpos.2 hne
          · cases hstep
  | leave =>
      -- past its loop the handler is no excuse any more: the bit is set
      simp only [reapZombies] at hstep
      split at hstep
      · rename_i hpos
        cases hstep
        intro hne
        rcases h hne with hpending | hreaping
        · exact .inl hpending
        · rw [hpos] at hreaping
          cases hreaping
      · cases hstep

namespace ForkServer

variable {α : Type} {s s' : ForkServer α} {fds : FdTable (SocketFile α)}

theorem main_kept {c : MainCall} (h : s.main c = some s') :
    s'.kept = s.kept ∧ s'.reaper = s.reaper := by
  unfold main at h
  split at h
  · exact Option.some.inj h ▸ ⟨rfl, rfl⟩
  · rename_i hpos
    obtain ⟨⟨clientSocket, fds⟩, hfds, rfl⟩ := Option.map_eq_some_iff.mp h
    simp only [kept, hpos]
    exact ⟨FdTable.close_alloc hfds, trivial⟩
  · rename_i hpos
    cases h
    simp only [kept, hpos, and_self]
  · rename_i hpos
    split at h
    · cases h
    · cases h
      simp only [kept, hpos, and_self]
  · rename_i hpos
    cases h
    simp only [kept, hpos, and_self]
  · rename_i hpos
    cases h
    simp only [kept, hpos, and_self]
  · cases h

/-- The server owes the table `fds` and collects its children. `kept` is what
is open once the connection in hand has been closed, so that it stays the same
through all of an iteration. -/
structure Inv (fds : FdTable (SocketFile α)) (s : ForkServer α) : Prop where
  kept : s.kept = fds
  reaping : s.reaper.Reaping

theorem Inv.step (hi : s.Inv fds) {e : ServerEvent} (h : s.step e = some s') : s'.Inv fds := by
  cases e with
  | main c =>
      simp only [ForkServer.step] at h
      split at h
      · obtain ⟨hkept, hreaper⟩ := main_kept h
        exact ⟨hkept.trans hi.kept, hreaper ▸ hi.reaping⟩
      · cases h
  | reap c =>
      obtain ⟨reaper, hreaper, rfl⟩ := Option.map_eq_some_iff.mp h
      exact ⟨hi.kept, Reaper.reaping_reapZombies hi.reaping hreaper⟩
  | child pid bytesRead =>
      cases h
      exact ⟨hi.kept, hi.reaping⟩
  | exit pid =>
      simp only [ForkServer.step] at h
      split at h
      · cases h
        exact ⟨hi.kept, fun _ => .inl rfl⟩
      · cases h

/-- A dead child that has not been collected has its signal pending or the
handler at work, and at the loop head the table is the one before the loop. -/
theorem server_keeps (serverSocket : Nat) (fds : FdTable (SocketFile α)) {es : List ServerEvent}
    (h : run ForkServer.step (init serverSocket fds) es = some s) :
    (s.reaper.pending = false → s.reaper.handler = .idle → s.reaper.zombies = []) ∧
      (s.pos = .accepting → s.fds = fds) := by
  have hi : s.Inv fds := run_invariant (P := fun s => s.Inv fds)
    (fun _ _ _ hs hstep => hs.step hstep) h ⟨rfl, fun hne => absurd rfl hne⟩
  constructor
  · intro hpending hidle
    by_contra hne
    rcases hi.reaping hne with hset | hreaping
    · rw [hpending] at hset
      cases hset
    · rw [hidle] at hreaping
      cases hreaping
  · intro hpos
    have hkept := hi.kept
    simpa only [ForkServer.kept, hpos] using hkept

/-- Two clients are served one after the other; both children die before the
signal is delivered, which collects both. -/
def twoClients : List ServerEvent :=
  [.main (.accept (some 0)), .main (.fork (some 100)), .main .close,
    .main (.accept (some 1)), .main (.fork (some 101)), .exit 100, .exit 101,
    .reap .deliver, .reap (.waitpid (some 101)), .reap (.waitpid (some 100)),
    .reap (.waitpid none), .reap .leave, .main .close]

/-- Standard input, output and error, the listening socket, and two free numbers. -/
def serverFds : FdTable (SocketFile Nat) :=
  ⟨[some (.before 0), some (.before 1), some (.before 2), some (.before 3), none, none]⟩

theorem server_keeps_two : ∃ s, run ForkServer.step (init 3 serverFds) twoClients = some s ∧
    (s.reaper.pending = false → s.reaper.handler = .idle → s.reaper.zombies = []) ∧
      (s.pos = .accepting → s.fds = serverFds) := by
  have hsome : (run ForkServer.step (init 3 serverFds) twoClients).isSome := by decide
  obtain ⟨s, hs⟩ := Option.isSome_iff_exists.mp hsome
  exact ⟨s, hs, server_keeps 3 serverFds hs⟩

end ForkServer

end CppDemos
