import CppDemos.Kcp.Flush

/-!
# When to call ikcp_update

`ikcp_update` is polled and flushes only when its timer is due (`Flushes`);
`ikcp_check` tells the caller how long it may wait before the next call.
`checked_eq_polled` is what makes the second a substitute for the first: a
program that calls `ikcp_update` only at the times `ikcp_check` names sends the
same datagrams at the same times as one that calls it every millisecond, as
long as neither gives the block anything to send or to read in between.
-/

namespace CppDemos

/-! ## The flush timer -/

/-- `ikcp_update` at this time comes to `ikcp_flush`. -/
def Flushes (kcp : Ikcpcb) (current : UInt32) : Prop :=
  kcp.updated = 0 ∨ 0 ≤ itimediff current kcp.tsFlush ∨ itimediff current kcp.tsFlush < -10000

instance (kcp : Ikcpcb) (current : UInt32) : Decidable (Flushes kcp current) :=
  inferInstanceAs (Decidable (_ ∨ _ ∨ _))

variable {kcp : Ikcpcb} {current : UInt32}

theorem exists_flush_due (kcp : Ikcpcb) (ts : UInt32) :
    ∃ current, Flushes kcp current ∧ 0 ≤ itimediff current ts := by
  by_cases hnow : Flushes kcp ts
  · exact ⟨ts, hnow, Int.le_of_eq (itimediff_self ts).symm⟩
  · -- the timer is less than ten seconds ahead
    obtain ⟨-, hearly, hnear⟩ : ¬ kcp.updated = 0 ∧ ¬ 0 ≤ itimediff ts kcp.tsFlush ∧
        ¬ itimediff ts kcp.tsFlush < -10000 := by simpa [Flushes] using hnow
    have hnat : (10000 : UInt32).toNat = 10000 := rfl
    have hflush : itimediff (ts + 10000) kcp.tsFlush
        = itimediff ts kcp.tsFlush + (10000 : UInt32).toNat :=
      itimediff_add_left (by omega) (by omega)
    have hts : itimediff (ts + 10000) ts = itimediff ts ts + (10000 : UInt32).toNat :=
      itimediff_add_left (by omega) (by rw [itimediff_self]; omega)
    rw [itimediff_self] at hts
    exact ⟨ts + 10000, Or.inr (Or.inl (by omega)), by omega⟩

theorem exists_not_flushes (h : kcp.updated ≠ 0) : ∃ current, ¬ Flushes kcp current := by
  have hone : itimediff (kcp.tsFlush - 1) kcp.tsFlush = -1 := by
    rw [itimediff, show kcp.tsFlush - 1 - kcp.tsFlush = -1 by grind]
    rfl
  refine ⟨kcp.tsFlush - 1, ?_⟩
  rw [Flushes, hone]
  simp [h]

theorem ikcpUpdate_of_flushes (h : Flushes kcp current) : ∃ updated tsFlush, updated ≠ 0 ∧
    ikcpUpdate kcp current
      = ikcpFlush { kcp with current := current, updated := updated, tsFlush := tsFlush } := by
  unfold ikcpUpdate updateClock
  by_cases hupdated : kcp.updated = 0
  · refine ⟨1, nextFlush { kcp with current := current, updated := 1, tsFlush := current },
      by decide, ?_⟩
    simp [hupdated, clockJumped, itimediff_self]
  · simp only [if_neg hupdated]
    cases hjump : clockJumped { kcp with current := current } with
    | true =>
        refine ⟨kcp.updated, nextFlush { kcp with current := current, tsFlush := current },
          hupdated, ?_⟩
        simp [itimediff_self]
    | false =>
        refine ⟨kcp.updated, nextFlush { kcp with current := current }, hupdated, ?_⟩
        simp only [clockJumped, Bool.or_eq_false_iff, decide_eq_false_iff_not] at hjump
        have hdue : itimediff current kcp.tsFlush ≥ 0 := (h.resolve_left hupdated).resolve_right
          hjump.2
        simp [hdue]

theorem ikcpUpdate_of_not_flushes (h : ¬ Flushes kcp current) :
    ikcpUpdate kcp current = ({ kcp with current := current }, []) := by
  simp only [Flushes, not_or, Int.not_le, Int.not_lt] at h
  obtain ⟨hupdated, hearly, hnear⟩ := h
  have hjump : clockJumped { kcp with current := current } = false := by
    simp only [clockJumped, Bool.or_eq_false_iff, decide_eq_false_iff_not]
    omega
  simp only [ikcpUpdate, updateClock, if_neg hupdated, hjump, Bool.false_eq_true, if_false]
  rw [if_neg (by omega)]

theorem ikcpUpdate_current (kcp : Ikcpcb) (old current : UInt32) :
    ikcpUpdate { kcp with current := old } current = ikcpUpdate kcp current := rfl

/-! ## ikcp_check -/

/-- The loop of `ikcp_check` over `snd_buf`, from `tm_packet` on: `none` for the
return from inside it. -/
def packetWait (current : UInt32) : List IkcpSeg → Int → Option Int
  | [], tmPacket => some tmPacket
  | seg :: p, tmPacket =>
      let diff := itimediff seg.resendts current
      if diff ≤ 0 then none
      else packetWait current p (if diff < tmPacket then diff else tmPacket)

def ikcpCheck (kcp : Ikcpcb) (current : UInt32) : UInt32 :=
  if kcp.updated = 0 then current
  else
    let tsFlush :=
      if itimediff current kcp.tsFlush ≥ 10000 ∨ itimediff current kcp.tsFlush < -10000 then
        current
      else kcp.tsFlush
    if itimediff current tsFlush ≥ 0 then current
    else
      let tmFlush := itimediff tsFlush current
      match packetWait current kcp.sndBuf 0x7fffffff with
      | none => current
      | some tmPacket =>
          let minimal := UInt32.ofInt (if tmPacket < tmFlush then tmPacket else tmFlush)
          let minimal := if minimal ≥ kcp.interval then kcp.interval else minimal
          current + minimal

theorem packetWait_pos {current : UInt32} {buf : List IkcpSeg} :
    ∀ {tmPacket wait : Int}, 0 < tmPacket → packetWait current buf tmPacket = some wait →
      0 < wait := by
  induction buf with
  | nil => exact fun hpos h => Option.some.inj h ▸ hpos
  | cons seg p ih =>
      intro tmPacket wait hpos h
      simp only [packetWait] at h
      split at h
      · cases h
      · refine ih ?_ h
        split
        · omega
        · exact hpos

theorem ofInt_wait_le {current interval : UInt32} {wait limit : Int} (hpos : 0 < wait)
    (hle : wait ≤ limit) :
    snOffset current (current + (if UInt32.ofInt wait ≥ interval then interval
      else UInt32.ofInt wait)) ≤ limit.toNat := by
  have hof : (UInt32.ofInt wait).toNat ≤ wait.toNat := by
    rw [UInt32.ofInt, UInt32.toNat_ofNat']
    omega
  rw [snOffset, UInt32.add_comm, UInt32.add_sub_cancel]
  split
  · rename_i hle
    have hle := UInt32.le_iff_toNat_le.mp hle
    omega
  · omega

/-- `ikcp_check` names the present, or a time up to which the flush timer is not
due. -/
theorem ikcpCheck_wait (kcp : Ikcpcb) (current : UInt32) :
    ∀ d < snOffset current (ikcpCheck kcp current), ¬ Flushes kcp (current + UInt32.ofNat d) := by
  have hnow (d : Nat) (hd : d < snOffset current current) :
      ¬ Flushes kcp (current + UInt32.ofNat d) := by
    rw [snOffset_eq_zero.mpr rfl] at hd
    exact absurd hd (Nat.not_lt_zero _)
  unfold ikcpCheck
  split
  · exact hnow
  · rename_i hupdated
    simp only
    by_cases hjump : itimediff current kcp.tsFlush ≥ 10000 ∨ itimediff current kcp.tsFlush < -10000
    · rw [if_pos hjump, itimediff_self]
      exact hnow
    · rw [if_neg hjump]
      split
      · exact hnow
      · rename_i hearly
        split
        · exact hnow
        · rename_i tmPacket hpacket
          have hpos := packetWait_pos (by decide) hpacket
          have hswap := itimediff_swap (a := current) (b := kcp.tsFlush) (by omega)
          intro d hd
          -- the wait is not longer than the time to `ts_flush`, which is below 10000
          have hwait : d < (-itimediff current kcp.tsFlush).toNat := by
            refine Nat.lt_of_lt_of_le hd (ofInt_wait_le ?_ ?_)
            · split <;> omega
            · split <;> omega
          have hnat : (UInt32.ofNat d).toNat = d := by
            rw [UInt32.toNat_ofNat', Nat.mod_eq_of_lt (by omega)]
          have hadd : itimediff (current + UInt32.ofNat d) kcp.tsFlush
              = itimediff current kcp.tsFlush + (UInt32.ofNat d).toNat :=
            itimediff_add_left (by omega) (by omega)
          rw [Flushes, hadd, hnat]
          exact not_or.mpr ⟨hupdated, by omega⟩

/-! ## Polling -/

/-- `ikcp_update` once every millisecond: the block at the end, and what was
sent when. -/
def polled : Nat → Ikcpcb → UInt32 → Ikcpcb × List (UInt32 × Bytes)
  | 0, kcp, _ => (kcp, [])
  | n + 1, kcp, current =>
      let (kcp, sent) := ikcpUpdate kcp current
      let (kcp, more) := polled n kcp (current + 1)
      (kcp, sent.map (fun data => (current, data)) ++ more)

/-- `ikcp_update` at the times `ikcp_check` names: `next` is the answer of the
last check, which is made again behind every update. -/
def checked : Nat → Ikcpcb → UInt32 → UInt32 → Ikcpcb × List (UInt32 × Bytes)
  | 0, kcp, _, _ => (kcp, [])
  | n + 1, kcp, current, next =>
      if current = next then
        let (kcp, sent) := ikcpUpdate kcp current
        let (kcp, more) := checked n kcp (current + 1) (ikcpCheck kcp (current + 1))
        (kcp, sent.map (fun data => (current, data)) ++ more)
      else checked n kcp (current + 1) next

theorem polled_succ (n : Nat) (kcp : Ikcpcb) (current : UInt32) :
    polled (n + 1) kcp current
      = ((polled n (ikcpUpdate kcp current).1 (current + 1)).1,
        (ikcpUpdate kcp current).2.map (fun data => (current, data)) ++
          (polled n (ikcpUpdate kcp current).1 (current + 1)).2) := rfl

theorem checked_now (n : Nat) (kcp : Ikcpcb) (current : UInt32) :
    checked (n + 1) kcp current current
      = ((checked n (ikcpUpdate kcp current).1 (current + 1)
            (ikcpCheck (ikcpUpdate kcp current).1 (current + 1))).1,
        (ikcpUpdate kcp current).2.map (fun data => (current, data)) ++
          (checked n (ikcpUpdate kcp current).1 (current + 1)
            (ikcpCheck (ikcpUpdate kcp current).1 (current + 1))).2) := by
  rw [checked, if_pos rfl]

theorem checked_wait (n : Nat) (kcp : Ikcpcb) {current next : UInt32} (h : current ≠ next) :
    checked (n + 1) kcp current next = checked n kcp (current + 1) next := by
  rw [checked, if_neg h]

theorem sameBut_current (kcp : Ikcpcb) : ∃ old, kcp = { kcp with current := old } :=
  ⟨kcp.current, rfl⟩

/-- The two programs side by side: the blocks differ in the clock only, and until
`next` the flush timer is not due. -/
theorem checked_polled :
    ∀ (n : Nat) {kcp kcp' : Ikcpcb} {current next : UInt32},
      (∃ old, kcp' = { kcp with current := old }) →
      (∀ d < snOffset current next, ¬ Flushes kcp (current + UInt32.ofNat d)) →
      (checked n kcp current next).2 = (polled n kcp' current).2 ∧
        ∃ old, (polled n kcp' current).1
          = { (checked n kcp current next).1 with current := old }
  | 0, _, _, _, _, hsame, _ => ⟨rfl, hsame⟩
  | n + 1, kcp, _, current, next, ⟨old, rfl⟩, hidle => by
      rw [polled_succ, ikcpUpdate_current]
      by_cases hnow : current = next
      · subst hnow
        obtain ⟨hsent, hblock⟩ := checked_polled n (sameBut_current (ikcpUpdate kcp current).1)
          (ikcpCheck_wait (ikcpUpdate kcp current).1 (current + 1))
        rw [checked_now, hsent]
        exact ⟨rfl, hblock⟩
      · have hpos : snOffset current next ≠ 0 := fun h => hnow (snOffset_eq_zero.mp h).symm
        have hnot : ¬ Flushes kcp current := by
          have hzero := hidle 0 (Nat.pos_of_ne_zero hpos)
          rwa [show UInt32.ofNat 0 = 0 from rfl, UInt32.add_zero] at hzero
        rw [checked_wait n kcp hnow, ikcpUpdate_of_not_flushes hnot]
        refine checked_polled n ⟨current, rfl⟩ (fun d hd => ?_)
        rw [snOffset_succ hpos] at hd
        have hlater := hidle (d + 1) (by omega)
        rwa [UInt32.ofNat_add, UInt32.add_comm (UInt32.ofNat d), ← UInt32.add_assoc] at hlater

/-- Calling `ikcp_update` only when `ikcp_check` says so sends the same
datagrams at the same times as calling it every millisecond, and leaves the same
block but for the time of the last call. -/
theorem checked_eq_polled (n : Nat) (kcp : Ikcpcb) (current : UInt32) :
    (checked n kcp current (ikcpCheck kcp current)).2 = (polled n kcp current).2 ∧
      ∃ old, (polled n kcp current).1
        = { (checked n kcp current (ikcpCheck kcp current)).1 with current := old } :=
  checked_polled n (sameBut_current kcp) (ikcpCheck_wait kcp current)

end CppDemos
