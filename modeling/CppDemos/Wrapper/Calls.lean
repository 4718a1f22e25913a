import CppDemos.Wrapper.Update

/-!
# A wrapper in use

What stays true of an initialised wrapper whatever is called on it (`Live`),
when `send` accepts a buffer and what it queues then (`Live.send`), and what a
series of calls does to a wrapper that receives (`ReadyAt.calls`): whatever is
interleaved with them, the messages handed to `data_callback_` are the tracked
ones, in order, each once.
-/

namespace CppDemos

/-! ## Settings -/

/-- The maximum segment size, 1400 less the header. -/
def groupMss : Nat := 1376

def groupSetup (conv : UInt32) : Setup :=
  { conv := conv, mtu := 1400, mss := 1376, sndWnd := 128, nocwnd := 1, stream := 0 }

theorem freshKcp_spec (conv : UInt32) (mem : Leftover) :
    (freshKcp conv mem).setup = groupSetup conv ∧
      (freshKcp conv mem).rcvSide = ⟨0, ikcpWndRcv, 0, 0, [], []⟩ ∧
      (freshKcp conv mem).sndSide = ⟨0, 0, [], []⟩ ∧ (freshKcp conv mem).acklist = [] := by
  rw [freshKcp_eq]
  exact ⟨rfl, rfl, rfl, rfl⟩

/-- The wrapper is initialised, with this control block. The settings are those
of `init` from then on, as no other method of the wrapper changes them. -/
structure KCPWrapper.Live (conv : UInt32) (w : KCPWrapper) (kcp : Ikcpcb) : Prop where
  init : w.initialized = true
  block : w.kcp = some kcp
  setup : kcp.setup = groupSetup conv

variable {conv : UInt32} {w : KCPWrapper} {kcp : Ikcpcb}

theorem live_of_init {w w' : KCPWrapper} {env : InitEnv} {ip : Bytes} {port : UInt16}
    {conv : UInt32} (h : w.init env ip port conv = (w', true)) :
    ∃ mem, w'.Live (actualConv conv) (freshKcp (actualConv conv) mem) := by
  obtain ⟨addr, iface, mem, -, rfl⟩ := init_eq_true h
  exact ⟨mem, rfl, rfl, (freshKcp_spec _ mem).1⟩

theorem senderWrapper_live : senderWrapper.Live mainConv (freshKcp mainConv ⟨0, 0, 0⟩) :=
  ⟨by decide +kernel, by decide +kernel, (freshKcp_spec _ _).1⟩

/-! ## send -/

/-- Fewer fragments than a window: `ikcp_send` takes the message. -/
def Fits (m : Bytes) : Prop := Fragment.count groupMss m.length < ikcpWndRcv.toNat

instance (m : Bytes) : Decidable (Fits m) := inferInstanceAs (Decidable (_ < _))

theorem fits_iff (m : Bytes) : Fits m ↔ m.length ≤ 174752 := by
  have h := Fragment.count_le_iff (show 0 < groupMss by decide) (show 0 < 127 by decide) m.length
  have hw : ikcpWndRcv.toNat = 128 := rfl
  have hm : groupMss * 127 = 174752 := rfl
  unfold Fits
  omega

theorem narrow_length {n : Nat} (h : n < 2 ^ 31) :
    (UInt64.ofNat n).toUInt32.toInt32.toInt = n := by
  have h32 : (UInt64.ofNat n).toUInt32.toNat = n := by
    rw [UInt64.toNat_toUInt32, UInt64.toNat_ofNat']
    omega
  rw [Int32.toInt, UInt32.toBitVec_toInt32, BitVec.toInt_eq_toNat_of_lt]
  · rw [UInt32.toNat_toBitVec, h32]
  · rw [UInt32.toNat_toBitVec, h32]
    omega

theorem narrow_low {n : Nat} (hlow : n % 2 ^ 32 < 2 ^ 31) :
    (UInt64.ofNat n).toUInt32.toInt32.toInt = ((n % 2 ^ 32 : Nat) : Int) := by
  have h32 : (UInt64.ofNat n).toUInt32 = (UInt64.ofNat (n % 2 ^ 32)).toUInt32 := by
    rw [← UInt32.toNat_inj, UInt64.toNat_toUInt32, UInt64.toNat_toUInt32, UInt64.toNat_ofNat',
      UInt64.toNat_ofNat']
    omega
  rw [h32]
  exact narrow_length hlow

theorem narrow_neg {n : Nat} (hhigh : 2 ^ 31 ≤ n % 2 ^ 32) :
    (UInt64.ofNat n).toUInt32.toInt32.toInt < 0 := by
  have h32 : (UInt64.ofNat n).toUInt32.toNat = n % 2 ^ 32 := by
    rw [UInt64.toNat_toUInt32, UInt64.toNat_ofNat']
    omega
  rw [Int32.toInt, UInt32.toBitVec_toInt32, BitVec.toInt_eq_toNat_cond, UInt32.toNat_toBitVec, h32,
    if_neg (by omega)]
  omega

/-- A buffer of any length: the bytes that the low 32 bits of the length count
are queued as their fragments, or nothing changes. -/
theorem KCPWrapper.Live.send_low (h : w.Live conv kcp) {data : Bytes}
    (hlen : data.length < 2 ^ 64) :
    (data ≠ [] ∧ Fits (data.take (data.length % 2 ^ 32)) ∧ ∃ segs, segs.map IkcpSeg.frag
        = Fragment.fragments groupMss (data.take (data.length % 2 ^ 32)) ∧
      w.send (some data) (UInt64.ofNat data.length)
        = ({ w with kcp := some (queueSnd kcp segs) }, true)) ∨
    ((data = [] ∨ ¬ Fits (data.take (data.length % 2 ^ 32))) ∧
      w.send (some data) (UInt64.ofNat data.length) = (w, false)) := by
  obtain ⟨hinit, hblock, hsetup⟩ := h
  have hmss : kcp.mss.toNat = groupMss := congrArg (fun s => s.mss.toNat) hsetup
  have hstream : kcp.stream = 0 := congrArg Setup.stream hsetup
  have hzero : UInt64.ofNat data.length = 0 ↔ data = [] := by
    rw [← UInt64.toNat_inj, UInt64.toNat_ofNat', ← List.length_eq_zero_iff]
    simp only [UInt64.toNat_zero]
    omega
  have htake : (data.take (data.length % 2 ^ 32)).length = data.length % 2 ^ 32 := by
    rw [List.length_take, Nat.min_eq_left (Nat.mod_le ..)]
  have hsame : ({ w with kcp := some kcp, initialized := true } : KCPWrapper) = w := by
    rw [← hblock, ← hinit]
  unfold KCPWrapper.send
  rw [hinit, hblock]
  by_cases hnil : data = []
  · exact Or.inr ⟨Or.inl hnil, by rw [if_pos (by simp [hzero.mpr hnil])]⟩
  · rw [if_neg (by simp [hzero, hnil])]
    by_cases hlow : data.length % 2 ^ 32 < 2 ^ 31
    · simp only [narrow_low hlow]
      have hspec := ikcpSend_spec kcp data (data.length % 2 ^ 32) hstream
        (by rw [hmss]; decide) (by rw [hmss]; decide) hlow (Nat.mod_le ..)
      rw [hmss, ← htake] at hspec
      split at hspec
      · rename_i hfits
        obtain ⟨segs, heq, hfrag⟩ := hspec
        rw [htake] at heq hfrag
        refine Or.inl ⟨hnil, hfits, segs, hfrag, ?_⟩
        rw [heq]
        simp only [ge_iff_le, Int.natCast_nonneg, decide_true]
      · rename_i hfits
        rw [htake] at hspec
        refine Or.inr ⟨Or.inr hfits, ?_⟩
        rw [hspec]
        exact Prod.ext hsame rfl
    · -- a negative length, which `ikcp_send` refuses first thing
      have hneg := narrow_neg (Nat.le_of_not_lt hlow)
      refine Or.inr ⟨Or.inr ?_, ?_⟩
      · rw [fits_iff, htake]
        omega
      · simp only [ikcpSend, if_pos hneg]
        exact Prod.ext hsame rfl

theorem KCPWrapper.Live.send (h : w.Live conv kcp) (data : Bytes)
    (hlen : data.length < 2 ^ 31) :
    (data ≠ [] ∧ Fits data ∧ ∃ segs, segs.map IkcpSeg.frag = Fragment.fragments groupMss data ∧
      w.send (some data) (UInt64.ofNat data.length)
        = ({ w with kcp := some (queueSnd kcp segs) }, true)) ∨
    ((data = [] ∨ ¬ Fits data) ∧
      w.send (some data) (UInt64.ofNat data.length) = (w, false)) := by
  have hsend := h.send_low (Nat.lt_trans hlen (by decide))
  rwa [Nat.mod_eq_of_lt (by omega), List.take_length] at hsend

/-! ## A series of calls -/

/-- What is called on a wrapper once it is initialised. -/
inductive Call where
  | send (data : Option Bytes) (len : UInt64)
  | update (iclock : UInt32) (results : List RecvResult)
deriving Repr

/-- The wrapper after the call, and the messages passed to `data_callback_`. -/
def KCPWrapper.call (w : KCPWrapper) : Call → KCPWrapper × List Bytes
  | .send data len => ((w.send data len).1, [])
  | .update iclock results => ((w.update iclock results).1, (w.update iclock results).2.2)

def KCPWrapper.calls (w : KCPWrapper) : List Call → KCPWrapper × List Bytes
  | [] => (w, [])
  | c :: cs =>
      let (w, messages) := w.call c
      let (w, more) := w.calls cs
      (w, messages ++ more)

/-- What a call passes to `udp_output` and to `data_callback_`. -/
structure Observed where
  sent : List Bytes := []
  delivered : List Bytes := []
deriving DecidableEq, Repr

/-- The wrapper after the call, and what can be seen of it from outside. -/
def KCPWrapper.observeCall (w : KCPWrapper) : Call → KCPWrapper × Observed
  | .send data len => ((w.send data len).1, {})
  | .update iclock results =>
      let (w, sent, delivered) := w.update iclock results
      (w, { sent := sent, delivered := delivered })

/-- One call after the other, each observed. -/
def KCPWrapper.observe (w : KCPWrapper) : List Call → KCPWrapper × List Observed
  | [] => (w, [])
  | c :: cs =>
      let (w, seen) := w.observeCall c
      let (w, more) := w.observe cs
      (w, seen :: more)

theorem KCPWrapper.observe_cons (w : KCPWrapper) (c : Call) (cs : List Call) :
    w.observe (c :: cs) = (((w.observeCall c).1.observe cs).1,
      (w.observeCall c).2 :: ((w.observeCall c).1.observe cs).2) := rfl

theorem KCPWrapper.observeCall_fst (w : KCPWrapper) (c : Call) :
    (w.observeCall c).1 = (w.call c).1 := by
  cases c <;> rfl

def Call.results : Call → List RecvResult
  | .send _ _ => []
  | .update _ results => results

/-- `data` is one of the datagrams read during the calls. -/
def IsRead (cs : List Call) (data : Bytes) : Prop :=
  ∃ c ∈ cs, .datagram data ∈ c.results

theorem KCPWrapper.Live.send_frame (h : w.Live conv kcp) (data : Option Bytes) (len : UInt64) :
    ∃ kcp', (w.send data len).1 = { w with kcp := some kcp' } ∧
      (w.send data len).1.Live conv kcp' ∧ kcp'.rcvSide = kcp.rcvSide ∧
      kcp'.acklist = kcp.acklist := by
  have hsame : w = { w with kcp := some kcp } := by rw [← h.block]
  unfold KCPWrapper.send
  split
  · exact ⟨kcp, hsame, h, rfl, rfl⟩
  · rw [h.block]
    cases data with
    | none => exact ⟨kcp, hsame, h, rfl, rfl⟩
    | some data =>
        obtain ⟨h1, h2, h3⟩ := ikcpSend_frame kcp data len.toUInt32.toInt32.toInt
        exact ⟨_, rfl, ⟨h.init, rfl, h1.trans h.setup⟩, h2, h3⟩

theorem KCPWrapper.Live.update_eq (h : w.Live conv kcp) (iclock : UInt32)
    (results : List RecvResult) :
    w.update iclock results =
      ({ w with kcp := some (handleReceive (ikcpUpdate kcp iclock).1 results).1 },
        (ikcpUpdate kcp iclock).2,
        if w.dataCallback then (handleReceive (ikcpUpdate kcp iclock).1 results).2 else []) := by
  unfold KCPWrapper.update
  rw [h.init, h.block]
  rfl

theorem handleReceive_setup :
    ∀ (results : List RecvResult) (kcp : Ikcpcb), (handleReceive kcp results).1.setup = kcp.setup
  | [], _ => rfl
  | .failed :: results, kcp => handleReceive_setup results kcp
  | .datagram data :: results, kcp => by
      have hone : (receiveDatagram kcp data).1.setup = kcp.setup :=
        (drain_frame _ _).1.trans (setup_input kcp _)
      rw [handleReceive_datagram]
      exact (handleReceive_setup results _).trans hone

theorem KCPWrapper.Live.call {kcp : Ikcpcb} (h : w.Live conv kcp) (c : Call) :
    ∃ kcp', (w.call c).1 = { w with kcp := some kcp' } ∧ (w.call c).1.Live conv kcp' := by
  cases c with
  | send data len =>
      obtain ⟨kcp', heq, hlive, -⟩ := h.send_frame data len
      exact ⟨kcp', heq, hlive⟩
  | update iclock results =>
      simp only [KCPWrapper.call, h.update_eq]
      refine ⟨_, rfl, h.init, rfl, ?_⟩
      exact (handleReceive_setup results _).trans ((ikcpUpdate_frame kcp iclock).1.trans h.setup)

theorem drained_iff (kcp : Ikcpcb) :
    Drained kcp ↔ kcp.rcvQueue = [] ∨ ikcpPeeksize kcp < 0 ∨
      (bufferSize : Int) < ikcpPeeksize kcp := by
  unfold Drained
  rcases ikcpRecv_cases kcp (Int.natCast_nonneg bufferSize) with
    ⟨err, herr, heq, hwhy⟩ | ⟨hne, hpeek, hle, probe, heq⟩
  · rw [heq]
    exact ⟨fun _ => hwhy, fun _ => herr⟩
  · rw [heq]
    simp only
    refine ⟨fun hneg => absurd hpeek (Int.not_le.mpr hneg), ?_⟩
    intro hwhy
    rcases hwhy with hnil | hneg | hbig
    · exact absurd hnil hne
    · exact hneg
    · exact absurd hle (Int.not_le.mpr hbig)

theorem drained_empty {kcp : Ikcpcb} {rcvNxt : UInt32}
    (h : kcp.rcvSide = ⟨rcvNxt, ikcpWndRcv, 0, 0, [], []⟩) : Drained kcp :=
  (drained_iff kcp).mpr (Or.inl (congrArg RcvSide.rcvQueue h))

theorem Drained.congr {kcp kcp' : Ikcpcb} (h : Drained kcp)
    (heq : kcp'.rcvSide = kcp.rcvSide) : Drained kcp' := by
  simp only [Ikcpcb.rcvSide, RcvSide.mk.injEq] at heq
  obtain ⟨-, -, -, hcount, hqueue, -⟩ := heq
  have hpeek : ikcpPeeksize kcp' = ikcpPeeksize kcp := by
    unfold ikcpPeeksize
    rw [hqueue, hcount]
  rw [drained_iff] at h ⊢
  rwa [hqueue, hpeek]

theorem handleReceive_drained :
    ∀ (results : List RecvResult) {kcp : Ikcpcb}, Drained kcp →
      Drained (handleReceive kcp results).1
  | [], _, h => h
  | .failed :: results, _, h => handleReceive_drained results h
  | .datagram data :: results, kcp, _ => by
      rw [handleReceive_datagram]
      exact handleReceive_drained results (drain_drained _)

/-! ## A wrapper that receives -/

/-- Between two calls: the wrapper collects the fragments of `msgs`, numbered
from `base` on, and has handed over what is before them. -/
structure ReadyAt (conv base : UInt32) (msgs : List Bytes) (w : KCPWrapper) (kcp : Ikcpcb) :
    Prop where
  live : w.Live conv kcp
  callback : w.dataCallback = true
  receiving : Receiving groupMss base msgs kcp
  drained : Drained kcp

variable {base : UInt32} {msgs : List Bytes}

theorem ReadyAt.call (h : ReadyAt conv base msgs w kcp) (hfits : ∀ m ∈ msgs, Fits m)
    (hspan : span groupMss msgs ≤ 2 ^ 31) (c : Call)
    (hdata : ∀ data, .datagram data ∈ c.results →
      GenuineDatagram groupMss conv base msgs data) :
    ∃ kcp' rest, msgs = (w.call c).2 ++ rest ∧
      ReadyAt conv (base + UInt32.ofNat (span groupMss (w.call c).2)) rest (w.call c).1 kcp' ∧
      (∀ sn, Has groupMss base msgs kcp sn →
        Has groupMss (base + UInt32.ofNat (span groupMss (w.call c).2)) rest kcp' sn) ∧
      ∀ sn data, .datagram data ∈ c.results → Carries groupMss conv base msgs data sn →
        snOffset base sn < ikcpWndRcv.toNat →
        Has groupMss (base + UInt32.ofNat (span groupMss (w.call c).2)) rest kcp' sn := by
  cases c with
  | send data len =>
      obtain ⟨kcp', hw, hlive, hrcv, -⟩ := h.live.send_frame data len
      have hbase : base + UInt32.ofNat (span groupMss []) = base := UInt32.add_zero base
      refine ⟨kcp', msgs, rfl, ⟨hlive, ?_, ?_, h.drained.congr hrcv⟩, ?_, ?_⟩
      · simp only [KCPWrapper.call, hw]
        exact h.callback
      · simp only [KCPWrapper.call, hbase]
        exact h.receiving.congr hrcv
      · intro sn hsn
        simp only [KCPWrapper.call, hbase]
        exact hsn.congr hrcv
      · exact fun sn data hmem => nomatch hmem
  | update iclock results =>
      obtain ⟨hsetup, hrcv, -⟩ := ikcpUpdate_frame kcp iclock
      have hconv : (ikcpUpdate kcp iclock).1.conv = conv :=
        congrArg Setup.conv (hsetup.trans h.live.setup)
      obtain ⟨rest, hrest, hadv, hnew⟩ := handleReceive_advances (by decide) results
        (h.receiving.congr hrcv) hfits hspan hconv hdata
      simp only [KCPWrapper.call, h.live.update_eq, h.callback, if_true]
      refine ⟨_, rest, hrest, ⟨⟨h.live.init, rfl, ?_⟩, rfl, hadv.receiving, ?_⟩,
        ?_, hnew⟩
      · exact hadv.setup.trans (hsetup.trans h.live.setup)
      · exact handleReceive_drained results (h.drained.congr hrcv)
      · intro sn hsn
        refine hadv.has sn ?_
        rw [← hrest]
        exact hsn.congr hrcv

/-- Any series of calls on a receiving wrapper: the messages handed over are
the front part of those tracked, and every segment read that was less than a
window ahead has been accepted. -/
theorem ReadyAt.calls :
    ∀ (cs : List Call) {base : UInt32} {msgs : List Bytes} {w : KCPWrapper} {kcp : Ikcpcb},
      ReadyAt conv base msgs w kcp → (∀ m ∈ msgs, Fits m) → span groupMss msgs ≤ 2 ^ 31 →
      (∀ data, IsRead cs data → GenuineDatagram groupMss conv base msgs data) →
      ∃ kcp' rest, msgs = (w.calls cs).2 ++ rest ∧
        ReadyAt conv (base + UInt32.ofNat (span groupMss (w.calls cs).2)) rest
          (w.calls cs).1 kcp' ∧
        ∀ sn, (Has groupMss base msgs kcp sn ∨ (snOffset base sn < ikcpWndRcv.toNat ∧
            ∃ data, IsRead cs data ∧ Carries groupMss conv base msgs data sn)) →
          Has groupMss (base + UInt32.ofNat (span groupMss (w.calls cs).2)) rest kcp' sn
  | [], base, msgs, w, kcp, h, _, _, _ => by
      have hbase : base + UInt32.ofNat (span groupMss []) = base := UInt32.add_zero base
      refine ⟨kcp, msgs, rfl, ?_, ?_⟩
      · simp only [KCPWrapper.calls, hbase]
        exact h
      · intro sn hsn
        simp only [KCPWrapper.calls, hbase]
        rcases hsn with hsn | ⟨-, data, ⟨c, hc, -⟩, -⟩
        · exact hsn
        · cases hc
  | c :: cs, base, msgs, w, kcp, h, hfits, hspan, hdata => by
      obtain ⟨kcp', rest, hrest, hone, hhas, hnew⟩ := h.call hfits hspan c
        fun data hmem => hdata data ⟨c, List.mem_cons_self .., hmem⟩
      rw [hrest] at hspan
      have hspan' := hspan
      rw [span_append] at hspan'
      have hlater : ∀ data, IsRead cs data → IsRead (c :: cs) data :=
        fun data ⟨c', hc', hmem⟩ => ⟨c', List.mem_cons_of_mem _ hc', hmem⟩
      obtain ⟨kcp'', rest', hrest', hmore, hnew'⟩ := ReadyAt.calls cs hone
        (fun m hm => hfits m (hrest ▸ List.mem_append_right _ hm)) (by omega)
        fun data hread =>
          let ⟨segs, hsegs⟩ := hdata data (hlater data hread)
          ⟨segs, (hrest ▸ hsegs).advance hspan⟩
      have hcalls : (w.calls (c :: cs)) = (((w.call c).1.calls cs).1,
        (w.call c).2 ++ ((w.call c).1.calls cs).2) := rfl
      rw [hcalls, span_append, UInt32.ofNat_add, ← UInt32.add_assoc]
      refine ⟨kcp'', rest', by rw [List.append_assoc, ← hrest', ← hrest], hmore,
        fun sn hsn => hnew' sn ?_⟩
      rcases hsn with hsn | ⟨hlt, data, ⟨c', hc', hmem⟩, hcarry⟩
      · exact Or.inl (hhas sn hsn)
      · rcases List.mem_cons.mp hc' with rfl | hc'
        · exact Or.inl (hnew sn data hmem hcarry hlt)
        · by_cases hle : span groupMss (w.call c).2 ≤ snOffset base sn
          · obtain ⟨segs, hsegs, hseg⟩ := hcarry
            refine Or.inr ⟨?_, data, ⟨c', hc', hmem⟩, segs, (hrest ▸ hsegs).advance hspan, hseg⟩
            rw [snOffset_sub hle]
            omega
          · -- the number belongs to a message already handed over
            exact Or.inl (Or.inl (Behind.advance hspan (Or.inr (Nat.lt_of_not_le hle))))

end CppDemos
