import CppDemos.Group.Invariant
import CppDemos.Kcp.Progress
import CppDemos.Wrapper.Bounded

/-!
# A group in good order

What recovery needs on top of `Sending`, for runs that have accepted no message
too long for `BUFFER_SIZE`. Then a member always has room in `rcv_queue`
(`NodeInv.room`), so no window is ever told to be shut, and a number given out by
nobody is neither on the network nor at any member: `Healthy` is kept by every
event (`Healthy.step`) and holds at the end of every run (`Group.healthy_of_run`).
-/

namespace CppDemos

open Fragment (stream)

variable {log : List Bytes} {conv : UInt32} {k : Nat} {kcp : Ikcpcb} {low high : Nat}

/-! ## One member -/

theorem NodeInv.room (h : NodeInv log conv k kcp) (hfits : ∀ m ∈ log, Fits m)
    (hshort : ∀ m ∈ log, m.length ≤ bufferSize) : kcp.rcvQueue.length < 128 := by
  have hrec := h.rcv.receiving
  cases hdrop : log.drop k with
  | nil =>
      rw [hdrop] at hrec
      have hlen := hrec.tracks.queue.length_le
      rw [List.length_map, Fragment.stream_nil, List.length_nil] at hlen
      omega
  | cons m rest =>
      rw [hdrop] at hrec
      have hmem : m ∈ log := List.mem_of_mem_drop (hdrop ▸ List.mem_cons_self ..)
      have hcount : Fragment.count groupMss m.length < 128 := hfits m hmem
      have hlen := hshort m hmem
      rcases hrec.tracks.peeksize (by decide) (hfits m hmem) with ⟨hlt, -⟩ | ⟨hge, hpeek⟩
      · omega
      · -- a complete message would have been handed over
        have hcpos := Fragment.count_pos (show 0 < groupMss by decide) m.length
        rcases (drained_iff kcp).mp h.drained with hnil | hneg | hbig
        · rw [hnil]
          exact Nat.succ_pos _
        · omega
        · omega

theorem NodeInv.wndUnused_ne_zero (h : NodeInv log conv k kcp) (hfits : ∀ m ∈ log, Fits m)
    (hshort : ∀ m ∈ log, m.length ≤ bufferSize) : UInt32.ofNat (ikcpWndUnused kcp) ≠ 0 := by
  have hroom := h.room hfits hshort
  have hok := h.rcv.receiving.tracks.ok
  have hw : kcp.rcvWnd.toNat = 128 := by rw [hok.wnd]; rfl
  have hcount := hok.count
  intro hzero
  have hnat := congrArg UInt32.toNat hzero
  rw [UInt32.toNat_ofNat', ikcpWndUnused, if_pos (by omega), UInt32.toNat_zero] at hnat
  omega

/-- The next number is not one the member has already. -/
theorem NodeInv.not_taken_next (h : NodeInv log conv k kcp) (hfits : ∀ m ∈ log, Fits m)
    (hshort : ∀ m ∈ log, m.length ≤ bufferSize) : ¬ Taken kcp kcp.rcvNxt := by
  have hroom := h.room hfits hshort
  have hok := h.rcv.receiving.tracks.ok
  have hw : kcp.rcvWnd.toNat = 128 := by rw [hok.wnd]; rfl
  have hcount := hok.count
  rintro (hlt | ⟨seg, hseg, heq⟩)
  · exact Nat.lt_irrefl _ hlt
  · rcases h.rcv.receiving.gap with hgap | hfull
    · exact hgap seg hseg heq
    · omega

/-- What a member writes when a flush is due: segments fit for the network, from
somebody with room, and no data beyond `high`. -/
theorem NodeInv.outs (h : NodeInv log conv k kcp) (hbound : span groupMss log < 2 ^ 31)
    (hfits : ∀ m ∈ log, Fits m) (hshort : ∀ m ∈ log, m.length ≤ bufferSize) {iclock : UInt32}
    (hsn : ∀ c ∈ (ikcpUpdate kcp iclock).1.sndBuf.map IkcpSeg.core, c.sn.toNat < high)
    (hflush : Flushes kcp iclock) : ∃ groups, Outs kcp iclock groups ∧ ∀ group ∈ groups,
      (datagram group).length ≤ bufferSize ∧
      ∀ seg ∈ group, OnNet log conv seg ∧ seg.Within high := by
  obtain ⟨hnext, -⟩ := h.flush hbound hfits iclock
  obtain ⟨groups, houts⟩ := ikcpUpdate_outs (h.sends.fitsMtu hfits h.setup) hflush
  have hmtu : kcp.mtu.toNat = 1400 := by
    rw [show kcp.mtu = 1400 from congrArg Setup.mtu h.setup]
    rfl
  have hbuf : bufferSize = 65535 := rfl
  refine ⟨groups, houts, fun group hgroup => ⟨?_, fun seg hseg => ?_⟩⟩
  · have hlen := houts.length group hgroup
    omega
  · have hflushed := houts.flushed seg (List.mem_flatten.mpr ⟨group, hgroup, hseg⟩)
    have hwnd := h.wndUnused_ne_zero hfits hshort
    refine ⟨⟨True, _, netSeg_of_flushed h.rcv hnext.sends hbound hfits
      (congrArg Setup.conv h.setup) hflushed⟩, ?_, ?_⟩
    · rcases hflushed with ⟨hctl, -⟩ | ⟨hctl, -⟩ | ⟨-, hwin, -⟩
      · exact hctl.wnd ▸ hwnd
      · exact hctl.wnd ▸ hwnd
      · exact hwin ▸ hwnd
    · intro hcmd
      rcases hflushed with ⟨-, hack, -⟩ | ⟨-, hask | htell⟩ | ⟨-, -, s, hs, hcore⟩
      · exact absurd (hack.symm.trans hcmd) (by decide)
      · exact absurd (hask.symm.trans hcmd) (by decide)
      · exact absurd (htell.symm.trans hcmd) (by decide)
      · exact hsn seg.core (hcore ▸ List.mem_map_of_mem hs)

/-! ## Reading -/

theorem drain_acklist : ∀ (fuel : Nat) (kcp : Ikcpcb), (drain fuel kcp).1.acklist = kcp.acklist
  | 0, _ => rfl
  | fuel + 1, kcp => by
      obtain ⟨-, -, hack⟩ := recv_frame kcp (Int.natCast_nonneg bufferSize)
      rw [drain_succ]
      split
      · exact hack
      · exact (drain_acklist fuel _).trans hack

theorem handleReceive_one {data : Bytes} (hlen : data.length ≤ bufferSize) :
    (handleReceive kcp [.datagram data]).1
      = (drain (drainFuel (ikcpInput kcp data).1) (ikcpInput kcp data).1).1 := by
  rw [handleReceive_datagram, receiveDatagram, List.take_of_length_le hlen]
  rfl

theorem Abreast.drain (hhigh : high < 2 ^ 32) :
    ∀ (fuel : Nat) {kcp : Ikcpcb}, Abreast low high kcp → Abreast low high (drain fuel kcp).1
  | 0, _, h => h
  | fuel + 1, kcp, h => by
      have hone := h.recv hhigh (Int.natCast_nonneg bufferSize)
      rw [drain_succ]
      split
      · exact hone
      · exact Abreast.drain hhigh fuel hone

theorem Abreast.handleReceive (hhigh : high < 2 ^ 32) :
    ∀ (results : List RecvResult) {kcp : Ikcpcb}, kcp.conv = conv → Abreast low high kcp →
      (∀ data, .datagram data ∈ results →
        DatagramOf (fun seg => seg.Sendable conv ∧ seg.Within high) data) →
      Abreast low high (handleReceive kcp results).1
  | [], _, _, h, _ => h
  | .failed :: results, _, hconv, h, hdata =>
      Abreast.handleReceive hhigh results hconv h
        fun data hmem => hdata data (List.mem_cons_of_mem _ hmem)
  | .datagram data :: results, kcp, hconv, h, hdata => by
      obtain ⟨segs, rfl, hlen, hsegs⟩ := hdata _ (List.mem_cons_self ..)
      have hinput := h.input hhigh (fun seg hseg => hconv.symm ▸ (hsegs seg hseg).1)
        fun seg hseg => (hsegs seg hseg).2
      rw [handleReceive_datagram, receiveDatagram, List.take_of_length_le hlen]
      refine Abreast.handleReceive hhigh results ?_ (hinput.drain hhigh _)
        fun data hmem => hdata data (List.mem_cons_of_mem _ hmem)
      have hsetup := (drain_frame (drainFuel (ikcpInput kcp (datagram segs)).1)
        (ikcpInput kcp (datagram segs)).1).1
      exact (congrArg Setup.conv (hsetup.trans (setup_input kcp _))).trans hconv

theorem RcvInv.taken_next (h : RcvInv log k kcp) (hbound : span groupMss log < 2 ^ 31)
    (hfits : ∀ m ∈ log, Fits m) (hconv : kcp.conv = conv) {segs : List IkcpSeg}
    (hlen : (datagram segs).length ≤ bufferSize) (hsegs : ∀ seg ∈ segs, OnNet log conv seg)
    (hroom : kcp.rcvQueue.length < 128) {seg : IkcpSeg} (hmem : seg ∈ segs)
    (hcmd : seg.cmd = ikcpCmdPush) (hsn : seg.sn = kcp.rcvNxt) :
    Taken (CppDemos.handleReceive kcp [.datagram (datagram segs)]).1 seg.sn := by
  have hpos := position_add_span log k
  have hnxt := h.rcvNxt_le hbound
  have hgenuine : GenuineSegs groupMss conv (UInt32.ofNat (position log k)) (log.drop k)
      (datagram segs) segs := by
    refine ⟨rfl, hlen, fun s hs => ?_, fun s hs => ?_⟩
    · obtain ⟨heard, taken, hnet⟩ := hsegs s hs
      exact hnet.sendable
    · obtain ⟨heard, taken, hnet⟩ := hsegs s hs
      exact hnet.genuineIn hbound k
  have hread : ∀ data, RecvResult.datagram data ∈ [RecvResult.datagram (datagram segs)] →
      data = datagram segs :=
    fun data hdata => RecvResult.datagram.inj (List.mem_singleton.mp hdata)
  obtain ⟨rest, hrest, -, hhas⟩ := handleReceive_advances (by decide)
    [.datagram (datagram segs)] h.receiving (fun m hm => hfits m (List.mem_of_mem_drop hm))
    (by omega) hconv fun data hdata => hread data hdata ▸ ⟨segs, hgenuine⟩
  have hnet : ∀ data, RecvResult.datagram data ∈ [RecvResult.datagram (datagram segs)] →
      DatagramOf (OnNet log conv) data :=
    fun data hdata => hread data hdata ▸ ⟨segs, rfl, hlen, hsegs⟩
  obtain ⟨k', hinv, htake, -⟩ := h.handleReceive hbound hfits hconv hnet
  -- where the two descriptions of the outcome meet
  have hposition : position log k'
      = position log k +
        span groupMss (CppDemos.handleReceive kcp [.datagram (datagram segs)]).2 := by
    rw [position, htake, span_append]
    rfl
  have hdrop : rest = log.drop k' := by
    have hlog := List.take_append_drop k log
    rw [hrest, ← List.append_assoc, ← htake] at hlog
    exact List.append_cancel_left (hlog.trans (List.take_append_drop k' log).symm)
  have hoff : snOffset (UInt32.ofNat (position log k)) seg.sn = kcp.rcvQueue.length := by
    rw [hsn, h.receiving.tracks.nxt, snOffset_ofNat _ (by omega)]
  have hw : ikcpWndRcv.toNat = 128 := rfl
  have hnew := hhas seg.sn (datagram segs) (List.mem_singleton_self _)
    ⟨segs, hgenuine, seg, hmem, hcmd, rfl⟩ (by omega)
  have hpos' := position_add_span log k'
  rw [← UInt32.ofNat_add, ← hposition, hdrop] at hnew
  rw [hsn] at hnew ⊢
  exact (hinv.receiving.has_iff_taken (by omega) (by omega)).mp hnew

/-! ## The invariant -/

variable {ι : Type} {hears : Member ι → Member ι → Bool} {g g' : Group ι}

/-- On top of `Sending`: what holds of each block whatever it reads, and that
nobody has got ahead of the sender. -/
structure Healthy (hears : Member ι → Member ι → Bool) (conv : UInt32) (g : Group ι) : Prop where
  sending : ∃ pos, Sending hears conv pos g
  sound : ∀ m kcp, (g.node m).kcp = some kcp → Sound conv kcp
  abreast : ∀ snd, (g.node .sender).kcp = some snd → ∀ m kcp, (g.node m).kcp = some kcp →
    Abreast 0 snd.sndNxt.toNat kcp
  net : ∀ snd, (g.node .sender).kcp = some snd → ∀ o data, (o, data) ∈ g.net →
    DatagramOf (fun seg => seg.Sendable conv ∧ seg.Within snd.sndNxt.toNat) data

theorem Group.Fresh.healthy (h : g.Fresh conv) : Healthy hears conv g where
  sending := ⟨_, h.sending⟩
  sound m kcp hkcp := by
    obtain ⟨env, ip, port, c, w, hinit, rfl, hnode⟩ := h.init m
    refine sound_of_init hinit kcp ?_
    rcases hnode with hnode | hnode
    · exact hnode ▸ hkcp
    · rw [hnode] at hkcp
      exact hkcp
  abreast snd hsnd m kcp hkcp := by
    obtain ⟨env, ip, port, c, w, hinit, -, hnode⟩ := h.init m
    obtain ⟨mem, hlive⟩ := live_of_init hinit
    have hblock : (g.node m).kcp = some (freshKcp (actualConv c) mem) := by
      rcases hnode with hnode | hnode
      · rw [hnode]
        exact hlive.block
      · rw [hnode]
        exact hlive.block
    obtain rfl := Option.some.inj (hblock.symm.trans hkcp)
    rw [freshKcp_eq]
    exact ⟨(by decide : ikcpWndRcv ≠ 0), rfl, Nat.zero_le _, Nat.zero_le _, by simp [ikcpInit]⟩
  net snd hsnd o data hmem := by
    rw [h.net] at hmem
    cases hmem

variable [DecidableEq ι] {m : Member ι} {iclock : UInt32} {results : List RecvResult}

theorem Group.update_block {kcp : Ikcpcb} (hlive : (g.node m).Live conv kcp) :
    ((g.update m iclock results).node m).Live conv
        (handleReceive (ikcpUpdate kcp iclock).1 results).1 ∧
      (g.update m iclock results).net
        = g.net ++ (ikcpUpdate kcp iclock).2.map fun data => (m, data) := by
  have hsetup : (handleReceive (ikcpUpdate kcp iclock).1 results).1.setup = groupSetup conv := by
    have hkeep := kept_setup (groupSetup conv)
    exact hkeep.handleReceive results (hkeep.update kcp iclock hlive.setup)
  rw [Group.update, hlive.update_eq]
  refine ⟨⟨?_, ?_, hsetup⟩, rfl⟩
  · simp only [Function.update_self]
    exact hlive.init
  · simp only [Function.update_self]

theorem Group.update_other {o : Member ι} (ho : o ≠ m) :
    (g.update m iclock results).node o = g.node o := Function.update_of_ne ho _ _

/-- An update of a member does not leave it behind. -/
theorem NodeInv.abreast (h : NodeInv log conv k kcp) (habreast : Abreast low high kcp)
    {high' : Nat} (hle : high ≤ high') (hhigh : high' < 2 ^ 32)
    (hdata : ∀ data, .datagram data ∈ results →
      DatagramOf (fun seg => seg.Sendable conv ∧ seg.Within high') data) :
    Abreast low high' (handleReceive (ikcpUpdate kcp iclock).1 results).1 := by
  obtain ⟨hsetup, hside, -⟩ := ikcpUpdate_frame kcp iclock
  have hrmt : (ikcpUpdate kcp iclock).1.rmtWnd = kcp.rmtWnd := by
    by_cases hflush : Flushes kcp iclock
    · obtain ⟨updated, tsFlush, hupdated, heq⟩ := ikcpUpdate_of_flushes hflush
      rw [heq]
      exact (ikcpFlush_block hupdated).1.2
    · rw [ikcpUpdate_of_not_flushes hflush]
  exact ((habreast.mono hle).congr hside hrmt).handleReceive hhigh results
    (congrArg Setup.conv (hsetup.trans h.setup)) hdata

/-- What a member writes in any update. -/
theorem NodeInv.sent_within (h : NodeInv log conv k kcp) (hbound : span groupMss log < 2 ^ 31)
    (hfits : ∀ m ∈ log, Fits m) (hshort : ∀ m ∈ log, m.length ≤ bufferSize)
    (hsn : ∀ c ∈ (ikcpUpdate kcp iclock).1.sndBuf.map IkcpSeg.core, c.sn.toNat < high) :
    ∀ data ∈ (ikcpUpdate kcp iclock).2,
      DatagramOf (fun seg => seg.Sendable conv ∧ seg.Within high) data := by
  intro data hdata
  by_cases hflush : Flushes kcp iclock
  · obtain ⟨groups, houts, hgroups⟩ := h.outs hbound hfits hshort hsn hflush
    rw [houts.outs] at hdata
    obtain ⟨group, hgroup, rfl⟩ := List.mem_map.mp hdata
    obtain ⟨hlen, hsegs⟩ := hgroups group hgroup
    refine ⟨group, rfl, hlen, fun seg hseg => ?_⟩
    obtain ⟨⟨heard, taken, hnet⟩, hwithin⟩ := hsegs seg hseg
    exact ⟨hnet.sendable, hwithin⟩
  · rw [ikcpUpdate_of_not_flushes hflush] at hdata
    cases hdata

theorem SndInv.numbered_update (h : SndInv log conv kcp) (hnode : NodeInv log conv k kcp)
    (hbound : span groupMss log < 2 ^ 31) (hfits : ∀ m ∈ log, Fits m) (iclock : UInt32) :
    kcp.sndNxt.toNat ≤ (ikcpUpdate kcp iclock).1.sndNxt.toNat ∧
      (ikcpUpdate kcp iclock).1.sndNxt.toNat < 2 ^ 31 ∧
      ∀ c ∈ (ikcpUpdate kcp iclock).1.sndBuf.map IkcpSeg.core,
        c.sn.toNat < (ikcpUpdate kcp iclock).1.sndNxt.toNat := by
  obtain ⟨moved, hspec⟩ := ikcpUpdate_spec (hnode.sends.fitsMtu hfits hnode.setup) iclock
  have hnxt := h.nxt_of_move hbound hspec.snd
  obtain ⟨-, hkeep, -⟩ := hnode.flush hbound hfits iclock
  have hnext := hkeep log hbound h
  have hle := hnext.nxt
  exact ⟨by omega, by omega, fun c hc => (hnext.buf c hc).2.2.1⟩

theorem handleReceive_sndNxt (results : List RecvResult) (kcp : Ikcpcb) :
    (handleReceive kcp results).1.sndNxt = kcp.sndNxt := by
  have hinput (k : Ikcpcb) (data : Bytes) : (ikcpInput k data).1.sndNxt = k.sndNxt :=
    ikcpInput_induct (P := fun k' => k'.sndNxt = k.sndNxt)
      (fun st conv head payload hst => (inputSeg_sndBuf st conv head payload).1.sndNxt.trans hst)
      (fun prevUna st hst => (inputFinish_frame prevUna st).1.sndNxt.trans hst) rfl data
  induction results generalizing kcp with
  | nil => rfl
  | cons r results ih =>
      cases r with
      | failed => exact ih kcp
      | datagram data =>
          rw [handleReceive_datagram]
          refine (ih _).trans (Eq.trans ?_ (hinput kcp (data.take bufferSize)))
          exact congrArg SndSide.sndNxt (drain_frame _ _).2

theorem Healthy.update (h : Healthy hears conv g) (hbound : g.created < 2 ^ 31)
    (hshort : ∀ m ∈ g.accepted, m.length ≤ bufferSize)
    (hread : results.all (readable hears (g.update m iclock results).net m) = true) :
    Healthy hears conv (g.update m iclock results) := by
  obtain ⟨pos, hsending⟩ := h.sending
  obtain ⟨snd, hsnd, hsndNode⟩ := hsending.inv.member .sender
  obtain ⟨kcp, hlive, hnode⟩ := hsending.inv.member m
  obtain ⟨hlive', hnet⟩ := @Group.update_block conv ι g _ m iclock results kcp hlive
  have hsound := (kept_sound conv).call (.update iclock results) (h.sound m)
  -- the numbers given out by the end of the update, and what is written
  obtain ⟨snd', hsnd', hle, hlt, hsn⟩ : ∃ snd', ((g.update m iclock results).node .sender).kcp
      = some snd' ∧ snd.sndNxt.toNat ≤ snd'.sndNxt.toNat ∧ snd'.sndNxt.toNat < 2 ^ 31 ∧
      ∀ c ∈ (ikcpUpdate kcp iclock).1.sndBuf.map IkcpSeg.core, c.sn.toNat < snd'.sndNxt.toNat := by
    have hinv := hsending.sender snd hsnd.block
    cases m with
    | sender =>
        obtain rfl := Option.some.inj (hsnd.block.symm.trans hlive.block)
        refine ⟨_, hlive'.block, ?_⟩
        rw [handleReceive_sndNxt]
        exact hinv.numbered_update hsndNode hbound hsending.inv.fits iclock
    | receiver i =>
        have hnxt := hinv.nxt
        have hidle := (hnode.flush hbound hsending.inv.fits iclock).2.2.1
          (hsending.inv.idle i kcp hlive.block)
        refine ⟨snd, ?_, Nat.le_refl _, Nat.lt_of_le_of_lt hnxt hbound, fun c hc => ?_⟩
        · rw [Group.update_other (by simp)]
          exact hsnd.block
        · rw [hidle.buf] at hc
          cases hc
  have hnet' : ∀ o data, (o, data) ∈ (g.update m iclock results).net →
      DatagramOf (fun seg => seg.Sendable conv ∧ seg.Within snd'.sndNxt.toNat) data := by
    intro o data hmem
    rw [hnet] at hmem
    rcases List.mem_append.mp hmem with hold | hnew
    · exact (h.net snd hsnd.block o data hold).imp fun seg hseg =>
        ⟨hseg.1, hseg.2.room, fun hcmd => Nat.lt_of_lt_of_le (hseg.2.sn hcmd) hle⟩
    · obtain ⟨data', hdata', heq⟩ := List.mem_map.mp hnew
      obtain ⟨-, rfl⟩ := Prod.mk.inj heq
      exact hnode.sent_within hbound hsending.inv.fits hshort hsn data' hdata'
  have hreads : ∀ data, .datagram data ∈ results →
      DatagramOf (fun seg => seg.Sendable conv ∧ seg.Within snd'.sndNxt.toNat) data := by
    intro data hmem
    have hany := List.all_eq_true.mp hread _ hmem
    obtain ⟨⟨o, data'⟩, hin, heq⟩ := List.any_eq_true.mp hany
    simp only [Bool.and_eq_true, beq_iff_eq] at heq
    exact heq.2 ▸ hnet' o data' hin
  refine ⟨?_, ?_, ?_, ?_⟩
  · obtain ⟨k', new, hnext, -⟩ := hsending.update hbound hread
    exact ⟨_, hnext⟩
  · intro o kcp' hkcp'
    by_cases ho : o = m
    · subst ho
      refine hsound kcp' ?_
      rw [hlive'.block] at hkcp'
      rw [KCPWrapper.call, hlive.update_eq]
      exact hkcp'
    · rw [Group.update_other ho] at hkcp'
      exact h.sound o kcp' hkcp'
  · intro s hs o kcp' hkcp'
    obtain rfl := Option.some.inj (hsnd'.symm.trans hs)
    by_cases ho : o = m
    · subst ho
      obtain rfl := Option.some.inj (hlive'.block.symm.trans hkcp')
      exact hnode.abreast (h.abreast snd hsnd.block o kcp hlive.block) hle (by omega) hreads
    · rw [Group.update_other ho] at hkcp'
      exact (h.abreast snd hsnd.block o kcp' hkcp').mono hle
  · intro s hs
    obtain rfl := Option.some.inj (hsnd'.symm.trans hs)
    exact hnet'

theorem Healthy.send (h : Healthy hears conv g) {data : Bytes} (hlen : data.length < 2 ^ 31)
    (hbound : (g.send data).created < 2 ^ 31) : Healthy hears conv (g.send data) := by
  obtain ⟨pos, hsending⟩ := h.sending
  obtain ⟨kcp, hlive, -⟩ := hsending.inv.member .sender
  have hsound := (kept_sound conv).call (.send (some data) (UInt64.ofNat data.length))
    (h.sound .sender)
  rcases hlive.send data hlen with ⟨-, hfits, segs, hsegs, heq⟩ | ⟨-, heq⟩
  · have hsend : g.send data = g.queued kcp segs data := by
      rw [Group.send, heq]
      rfl
    have hkeep {low high : Nat} (hkcp : Abreast low high kcp) :
        Abreast low high (queueSnd kcp segs) := hkcp.congr rfl rfl
    have hsnd (snd : Ikcpcb) (hs : ((g.queued kcp segs data).node .sender).kcp = some snd) :
        snd = queueSnd kcp segs := Option.some.inj (hs.symm.trans Group.queued_sender)
    refine ⟨⟨pos, hsending.send hlen hbound⟩, ?_, ?_, ?_⟩
    · rw [hsend]
      intro o kcp' hkcp'
      by_cases ho : o = .sender
      · subst ho
        refine hsound kcp' ?_
        rw [KCPWrapper.call, heq]
        rw [Group.queued_sender] at hkcp'
        exact hkcp'
      · rw [Group.queued_other ho] at hkcp'
        exact h.sound o kcp' hkcp'
    · rw [hsend]
      intro snd hs o kcp' hkcp'
      obtain rfl := hsnd snd hs
      by_cases ho : o = .sender
      · subst ho
        obtain rfl := hsnd kcp' hkcp'
        exact hkeep (h.abreast kcp hlive.block .sender kcp hlive.block)
      · rw [Group.queued_other ho] at hkcp'
        exact h.abreast kcp hlive.block o kcp' hkcp'
    · rw [hsend]
      intro snd hs o d hmem
      obtain rfl := hsnd snd hs
      exact h.net kcp hlive.block o d hmem
  · rwa [Group.send_refused heq]

/-! ## Runs -/

/-- How many segments there are, or more than there can be once a message too
long to be delivered has been accepted. -/
def Group.load (g : Group ι) : Nat :=
  g.created + 2 ^ 31 * g.accepted.countP fun m => bufferSize < m.length

omit [DecidableEq ι] in
theorem Group.load_lt_iff : g.load < 2 ^ 31 ↔
    g.created < 2 ^ 31 ∧ ∀ m ∈ g.accepted, m.length ≤ bufferSize := by
  have hnone : (g.accepted.countP fun m => bufferSize < m.length) = 0 ↔
      ∀ m ∈ g.accepted, m.length ≤ bufferSize := by
    simp only [List.countP_eq_zero, decide_eq_true_eq, Nat.not_lt]
  rw [← hnone, Group.load]
  omega

theorem Group.load_mono {e : Event ι} (h : g.step hears e = some g') : g.load ≤ g'.load := by
  have hcreated := Group.created_mono h
  have hcount : (g.accepted.countP fun m => bufferSize < m.length)
      ≤ g'.accepted.countP fun m => bufferSize < m.length := by
    cases e with
    | send data =>
        simp only [Group.step, Option.ite_none_right_eq_some, Option.some.injEq] at h
        obtain ⟨-, rfl⟩ := h
        rcases g.accepted_send data with heq | heq
        · rw [heq]
        · rw [heq, List.countP_append]
          exact Nat.le_add_right _ _
    | update m iclock results =>
        simp only [Group.step, Option.ite_none_right_eq_some, Option.some.injEq] at h
        obtain ⟨-, rfl⟩ := h
        exact Nat.le_refl _
  unfold Group.load
  omega

theorem Healthy.step (h : Healthy hears conv g) {e : Event ι} (hstep : g.step hears e = some g')
    (hload : g'.load < 2 ^ 31) : Healthy hears conv g' := by
  have hmono := Group.load_mono hstep
  obtain ⟨hbound, hshort⟩ := Group.load_lt_iff.mp (Nat.lt_of_le_of_lt hmono hload)
  cases e with
  | send data =>
      simp only [Group.step, Option.ite_none_right_eq_some, Option.some.injEq] at hstep
      obtain ⟨hlen, rfl⟩ := hstep
      exact h.send hlen (Group.load_lt_iff.mp hload).1
  | update m iclock results =>
      simp only [Group.step, Option.ite_none_right_eq_some, Option.some.injEq] at hstep
      obtain ⟨hread, rfl⟩ := hstep
      exact h.update hbound hshort hread

theorem Group.healthy_of_run {es : List (Event ι)} (hfresh : g.Fresh conv)
    (hrun : Machine.run (Group.step hears) g es = some g') (hbound : g'.created < 2 ^ 31)
    (hshort : ∀ m ∈ g'.accepted, m.length ≤ bufferSize) : Healthy hears conv g' :=
  Machine.run_invariant_below (fun _ _ _ => Group.load_mono)
    (fun _ _ _ h hstep hload => h.step hstep hload) hrun hfresh.healthy
    (Group.load_lt_iff.mpr ⟨hbound, hshort⟩)

end CppDemos
