import Mathlib.Data.Nat.Find
import CppDemos.Wrapper.Update

/-!
# When handleReceive returns

Both loops of `handleReceive` are `while (true)`. They are given turns here, and
`none` means that the turns were not enough. The inner loop takes a segment out
of the block with every turn, so it ends by itself (`drainTurns_eq`). The outer
one leaves only where `recvfrom` fails with EAGAIN or EWOULDBLOCK and goes on
after every other error: `handleReceive_returns_iff`. When it does leave it has
done what `handleReceive` does with the results read so far
(`handleReceiveTurns_eq`).
-/

namespace CppDemos

/-! ## Definitions -/

def eintr : Int := 4
def ebadf : Int := 9
def eagain : Int := 11
def ewouldblock : Int := eagain

/-- What one call of `recvfrom` does: it reads a datagram, or it returns a
negative value and sets `errno`. -/
inductive Recvfrom where
  | datagram (data : Bytes)
  | error (errno : Int)
deriving DecidableEq, Repr

/-- The error on which the outer loop is left. -/
def Recvfrom.WouldBlock : Recvfrom → Prop
  | .datagram _ => False
  | .error errno => errno = eagain ∨ errno = ewouldblock

instance : DecidablePred Recvfrom.WouldBlock
  | .datagram _ => inferInstanceAs (Decidable False)
  | .error _ => inferInstanceAs (Decidable (_ ∨ _))

/-- The inner loop, for so many turns. -/
def drainTurns : Nat → Ikcpcb → Option (Ikcpcb × List Bytes)
  | 0, _ => none
  | turns + 1, kcp =>
      let (kcp, kcpRecvLen, buffer) := ikcpRecv kcp bufferSize
      if kcpRecvLen < 0 then some (kcp, [])
      else (drainTurns turns kcp).map fun r => (r.1, buffer :: r.2)

/-- `handleReceive` from the `i`-th call of `recvfrom` on, for so many turns of
each loop. -/
def handleReceiveTurns (recvfrom : Nat → Recvfrom) :
    Nat → Nat → Ikcpcb → Option (Ikcpcb × List Bytes)
  | 0, _, _ => none
  | turns + 1, i, kcp =>
      match recvfrom i with
      | .error errno =>
          if errno = eagain ∨ errno = ewouldblock then some (kcp, [])
          else handleReceiveTurns recvfrom turns (i + 1) kcp
      | .datagram data =>
          (drainTurns turns (ikcpInput kcp (data.take bufferSize)).1).bind fun r =>
            (handleReceiveTurns recvfrom turns (i + 1) r.1).map fun r' => (r'.1, r.2 ++ r'.2)

/-- `handleReceive` returns: some number of turns is enough. -/
def Returns (kcp : Ikcpcb) (recvfrom : Nat → Recvfrom) : Prop :=
  ∃ turns, (handleReceiveTurns recvfrom turns 0 kcp).isSome

/-- The result as `handleReceive` takes it, for results that do not end it. -/
def Recvfrom.result : Recvfrom → RecvResult
  | .datagram data => .datagram data
  | .error _ => .failed

/-- The first `n` results from the `i`-th on. -/
def readResults (recvfrom : Nat → Recvfrom) : Nat → Nat → List RecvResult
  | _, 0 => []
  | i, n + 1 => (recvfrom i).result :: readResults recvfrom (i + 1) n

/-! ## The inner loop -/

/-- With more turns than there are segments the inner loop ends, and further
turns change nothing. -/
theorem drainTurns_eq :
    ∀ {turns fuel : Nat} {kcp : Ikcpcb}, kcp.rcvQueue.length + kcp.rcvBuf.length < turns →
      kcp.rcvQueue.length + kcp.rcvBuf.length < fuel →
      drainTurns turns kcp = some (drain fuel kcp)
  | turns + 1, fuel + 1, kcp, hturns, hfuel => by
      rw [drain_succ, drainTurns]
      simp only
      split
      · rfl
      · rename_i hpos
        have hlt := recv_length_lt hpos
        rw [@drainTurns_eq turns fuel _ (by omega) (by omega), Option.map_some]

theorem drainTurns_receiveDatagram {turns : Nat} {kcp : Ikcpcb} {data : Bytes}
    (h : drainFuel (ikcpInput kcp (data.take bufferSize)).1 ≤ turns) :
    drainTurns turns (ikcpInput kcp (data.take bufferSize)).1 = some (receiveDatagram kcp data) :=
  drainTurns_eq h (Nat.lt_succ_self _)

/-! ## The outer loop -/

variable {recvfrom : Nat → Recvfrom}

/-- The results up to the first that ends the loop are handled as
`handleReceive` does, given turns enough. -/
theorem handleReceiveTurns_eq :
    ∀ (n : Nat) {i : Nat} (kcp : Ikcpcb), (recvfrom (i + n)).WouldBlock →
      (∀ j < n, ¬ (recvfrom (i + j)).WouldBlock) →
      ∃ enough, ∀ turns, enough ≤ turns →
        handleReceiveTurns recvfrom turns i kcp
          = some (handleReceive kcp (readResults recvfrom i n))
  | 0, i, kcp, hblock, _ => by
      refine ⟨1, ?_⟩
      intro turns hturns
      obtain ⟨turns, rfl⟩ : ∃ t, turns = t + 1 := ⟨turns - 1, by omega⟩
      rw [handleReceiveTurns]
      cases hi : recvfrom i with
      | datagram data =>
          rw [Nat.add_zero, hi] at hblock
          exact hblock.elim
      | error errno =>
          rw [Nat.add_zero, hi] at hblock
          exact if_pos hblock
  | n + 1, i, kcp, hblock, hgo => by
      have hblock' : (recvfrom (i + 1 + n)).WouldBlock := by rwa [Nat.add_right_comm]
      have hgo' : ∀ j < n, ¬ (recvfrom (i + 1 + j)).WouldBlock := by
        intro j hj
        rw [Nat.add_right_comm]
        exact hgo (j + 1) (Nat.succ_lt_succ hj)
      have hfirst := hgo 0 (Nat.succ_pos n)
      rw [Nat.add_zero] at hfirst
      cases hi : recvfrom i with
      | error errno =>
          have hfirst : ¬ (errno = eagain ∨ errno = ewouldblock) := by rwa [hi] at hfirst
          obtain ⟨enough, hrest⟩ := handleReceiveTurns_eq n kcp hblock' hgo'
          refine ⟨enough + 1, ?_⟩
          intro turns hturns
          obtain ⟨turns, rfl⟩ : ∃ t, turns = t + 1 := ⟨turns - 1, by omega⟩
          rw [handleReceiveTurns, readResults, hi]
          simp only
          rw [if_neg hfirst, hrest turns (by omega)]
          rfl
      | datagram data =>
          obtain ⟨enough, hrest⟩ :=
            handleReceiveTurns_eq n (receiveDatagram kcp data).1 hblock' hgo'
          refine ⟨max enough (drainFuel (ikcpInput kcp (data.take bufferSize)).1) + 1, ?_⟩
          intro turns hturns
          obtain ⟨turns, rfl⟩ : ∃ t, turns = t + 1 := ⟨turns - 1, by omega⟩
          rw [handleReceiveTurns, readResults, hi]
          simp only
          rw [drainTurns_receiveDatagram (by omega), Option.bind_some,
            hrest turns (by omega), Option.map_some]
          rfl

/-- As long as no call would block, no number of turns is enough. -/
theorem handleReceiveTurns_none (h : ∀ n, ¬ (recvfrom n).WouldBlock) :
    ∀ (turns i : Nat) (kcp : Ikcpcb), handleReceiveTurns recvfrom turns i kcp = none
  | 0, _, _ => rfl
  | turns + 1, i, kcp => by
      have hi := h i
      rw [handleReceiveTurns]
      cases hres : recvfrom i with
      | error errno =>
          have hi : ¬ (errno = eagain ∨ errno = ewouldblock) := by rwa [hres] at hi
          simp only
          rw [if_neg hi, handleReceiveTurns_none h turns]
      | datagram data =>
          simp only [handleReceiveTurns_none h turns, Option.map_none, Option.bind_fun_none]

theorem returns_of_wouldBlock (kcp : Ikcpcb) (h : ∃ n, (recvfrom n).WouldBlock) :
    Returns kcp recvfrom := by
  have hfirst : (recvfrom (0 + Nat.find h)).WouldBlock := by
    rw [Nat.zero_add]
    exact Nat.find_spec h
  obtain ⟨enough, heq⟩ := handleReceiveTurns_eq (Nat.find h) kcp hfirst fun j hj => by
    rw [Nat.zero_add]
    exact Nat.find_min h hj
  exact ⟨enough, by rw [heq enough (Nat.le_refl _)]; rfl⟩

/-- For every block and every behaviour of the socket: each message taken leaves
fewer segments behind, and `handleReceive` returns if and only if some call of
`recvfrom` fails with EAGAIN or EWOULDBLOCK. -/
theorem handleReceive_returns_iff (kcp : Ikcpcb) (recvfrom : Nat → Recvfrom) :
    (∀ k : Ikcpcb, ¬ (ikcpRecv k bufferSize).2.1 < 0 →
      (ikcpRecv k bufferSize).1.rcvQueue.length + (ikcpRecv k bufferSize).1.rcvBuf.length
        < k.rcvQueue.length + k.rcvBuf.length) ∧
    (Returns kcp recvfrom ↔ ∃ n, (recvfrom n).WouldBlock) := by
  refine ⟨fun k => recv_length_lt, ?_, returns_of_wouldBlock kcp⟩
  rintro ⟨turns, hsome⟩
  by_contra hnever
  rw [handleReceiveTurns_none (fun n hn => hnever ⟨n, hn⟩)] at hsome
  cases hsome

/-- A socket on which every call fails with EBADF. -/
theorem persistent_error_never_returns :
    ¬ ∀ (kcp : Ikcpcb) (recvfrom : Nat → Recvfrom),
      (∃ n, ∀ m, n ≤ m → ∃ errno, recvfrom m = .error errno ∧ errno ≠ eintr) →
      Returns kcp recvfrom := by
  intro h
  obtain ⟨turns, hsome⟩ := h (freshKcp mainConv ⟨0, 0, 0⟩) (fun _ => .error ebadf)
    ⟨0, fun m _ => ⟨ebadf, rfl, by decide⟩⟩
  have hnever : ∀ n : Nat, ¬ ((fun _ => .error ebadf : Nat → Recvfrom) n).WouldBlock :=
    fun _ => show ¬ (ebadf = eagain ∨ ebadf = ewouldblock) by decide
  rw [handleReceiveTurns_none hnever] at hsome
  cases hsome

end CppDemos
