import CppDemos.Lib.OrderedLog
import CppDemos.Group.Model

/-!
# The joint invariant of a group

`Sending` holds when all members are freshly initialised and is kept by every
event, as long as fewer than `2 ^ 31` segments have been created
(`Sending.step`, `Group.sending_of_run`). An update of one member is treated
in two parts: `GroupInv.update` says what it does to the group whoever the
member is and whatever the sender is at, and `Sending.update` adds the
sender's buffer.

Delivery is then a refinement: a run of the group is a run of the ordered
broadcast, whose publications are the accepted messages and whose readers are
the receivers' callbacks (`Group.run_refines`).
-/

namespace CppDemos

open Fragment (stream)

variable {ι : Type} {hears : Member ι → Member ι → Bool} {conv : UInt32}
  {log : List Bytes} {pos : Member ι → Nat} {g g' : Group ι}

/-! ## The initial state -/

theorem Group.Fresh.node (h : g.Fresh conv) (m : Member ι) :
    ∃ kcp, (g.node m).Live conv kcp ∧ NodeInv [] conv 0 kcp ∧ SndInv [] conv kcp := by
  obtain ⟨env, ip, port, c, w, hinit, rfl, hnode⟩ := h.init m
  obtain ⟨mem, hlive⟩ := live_of_init hinit
  refine ⟨_, ?_, NodeInv.fresh [] _ mem⟩
  rcases hnode with hnode | hnode
  · rw [hnode]
    exact hlive
  · rw [hnode]
    exact ⟨hlive.init, hlive.block, hlive.setup⟩

theorem Group.Fresh.sndInv (h : g.Fresh conv) {m : Member ι} {kcp : Ikcpcb}
    (hkcp : (g.node m).kcp = some kcp) : SndInv [] conv kcp := by
  obtain ⟨kcp', hlive, -, hsnd⟩ := h.node m
  obtain rfl : kcp' = kcp := Option.some.inj (hlive.block.symm.trans hkcp)
  exact hsnd

theorem Group.Fresh.inv (h : g.Fresh conv) : GroupInv hears conv [] (fun _ => 0) g where
  fits _ hm := nomatch hm
  member m := by
    obtain ⟨kcp, hlive, hinv, -⟩ := h.node m
    exact ⟨kcp, hlive, hinv⟩
  callback := h.callback
  idle i kcp hkcp := (sndInv_nil_iff.mp (h.sndInv hkcp)).1
  net o data hmem := by
    rw [h.net] at hmem
    cases hmem

theorem Group.Fresh.sending (h : g.Fresh conv) : Sending hears conv (fun _ => 0) g where
  inv := h.accepted ▸ h.inv
  sender kcp hkcp := h.accepted ▸ h.sndInv hkcp
  delivered i := by
    rw [h.delivered, h.accepted]
    rfl
  released sn hgone := by
    obtain ⟨kcp, hkcp, hlt, -⟩ := hgone
    rw [(sndInv_nil_iff.mp (h.sndInv hkcp)).2] at hlt
    exact absurd hlt (Nat.not_lt_zero _)

/-! ## An update -/

variable {m : Member ι} {iclock : UInt32} {results : List RecvResult}

theorem Group.Sent.mono {log' : List Bytes} {o : Member ι} {seg : IkcpSeg}
    (h : g.Sent hears conv log o seg) (hlog : log <+: log')
    (htaken : ∀ sn : UInt32, sn.toNat < 2 ^ 31 → g.Accepted o sn → g'.Accepted o sn)
    (hbound : span groupMss log < 2 ^ 31) : g'.Sent hears conv log' o seg :=
  ⟨h.net.mono hlog htaken hbound, h.data⟩

theorem GroupInv.sent (h : GroupInv hears conv log pos g) (hbound : span groupMss log < 2 ^ 31)
    {kcp : Ikcpcb} (hlive : (g.node m).Live conv kcp) (hnode : NodeInv log conv (pos m) kcp)
    (iclock : UInt32) :
    ∀ data ∈ (ikcpUpdate kcp iclock).2, DatagramOf (g.Sent hears conv log m) data := by
  intro data hdata
  refine (hnode.sent hbound h.fits iclock (hears .sender m = true) data hdata).imp
    fun seg ⟨hseg, hidle⟩ => ⟨hseg.mono (List.prefix_refl _) ?_ hbound, fun hcmd => ?_⟩
  · exact fun sn _ htaken => ⟨kcp, hlive.block, htaken⟩
  · cases m with
    | sender => rfl
    | receiver i => exact absurd hcmd (hidle (h.idle i kcp hlive.block))

variable [DecidableEq ι]

/-- What an update of `m` does: its block goes from `kcp` to `kcp'` and it
takes the messages `new`. -/
structure Updated (hears : Member ι → Member ι → Bool) (conv : UInt32) (log : List Bytes)
    (pos : Member ι → Nat) (g g' : Group ι) (m : Member ι) (k' : Nat) (kcp kcp' : Ikcpcb)
    (new : List Bytes) : Prop where
  live : (g.node m).Live conv kcp
  node : NodeUpdate log conv (fun seg => ∃ o, hears m o = true ∧ g.Sent hears conv log o seg)
    (pos m) k' kcp kcp' new
  nodes : g'.node = Function.update g.node m { g.node m with kcp := some kcp' }
  accepted : g'.accepted = g.accepted
  delivered : g'.delivered = Function.update g.delivered m
    (g.delivered m ++ if (g.node m).dataCallback then new else [])

namespace Updated

variable {k' : Nat} {kcp kcp' : Ikcpcb} {new : List Bytes}

theorem block (h : Updated hears conv log pos g g' m k' kcp kcp' new) :
    (g'.node m).kcp = some kcp' := by
  rw [h.nodes, Function.update_self]

theorem other (h : Updated hears conv log pos g g' m k' kcp kcp' new) {o : Member ι}
    (ho : o ≠ m) : g'.node o = g.node o := by
  rw [h.nodes, Function.update_of_ne ho]

/-- No member gives up what it has accepted. -/
theorem mono (h : Updated hears conv log pos g g' m k' kcp kcp' new) {o : Member ι}
    {sn : UInt32} (hsn : sn.toNat < 2 ^ 31) (htaken : g.Accepted o sn) : g'.Accepted o sn := by
  by_cases ho : o = m
  · subst ho
    obtain ⟨old, hold, htaken⟩ := htaken
    obtain rfl : kcp = old := Option.some.inj (h.live.block.symm.trans hold)
    exact ⟨kcp', h.block, h.node.taken sn hsn htaken⟩
  · rwa [Group.Accepted, h.other ho]

end Updated

theorem GroupInv.read (h : GroupInv hears conv log pos g) (hbound : span groupMss log < 2 ^ 31)
    {kcp : Ikcpcb} (hlive : (g.node m).Live conv kcp) (hnode : NodeInv log conv (pos m) kcp)
    (hread : results.all (readable hears (g.update m iclock results).net m) = true) :
    ∀ data, .datagram data ∈ results →
      DatagramOf (fun seg => ∃ o, hears m o = true ∧ g.Sent hears conv log o seg) data := by
  intro data hmem
  have hnet : (g.update m iclock results).net
      = g.net ++ (ikcpUpdate kcp iclock).2.map fun data => (m, data) := by
    rw [Group.update, hlive.update_eq]
  have hany := List.all_eq_true.mp hread _ hmem
  rw [readable, hnet, List.any_append, Bool.or_eq_true] at hany
  rcases hany with hany | hany
  · obtain ⟨⟨o, data'⟩, hold, heq⟩ := List.any_eq_true.mp hany
    simp only [Bool.and_eq_true, beq_iff_eq] at heq
    obtain ⟨hhear, rfl⟩ := heq
    exact (h.net o data' hold).imp fun seg hseg => ⟨o, hhear, hseg⟩
  · obtain ⟨sent, hown, heq⟩ := List.any_eq_true.mp hany
    obtain ⟨data', hdata', rfl⟩ := List.mem_map.mp hown
    simp only [Bool.and_eq_true, beq_iff_eq] at heq
    obtain ⟨hhear, rfl⟩ := heq
    exact (h.sent hbound hlive hnode iclock data' hdata').imp fun seg hseg => ⟨m, hhear, hseg⟩

theorem GroupInv.update (h : GroupInv hears conv log pos g)
    (hbound : span groupMss log < 2 ^ 31)
    (hread : results.all (readable hears (g.update m iclock results).net m) = true) :
    ∃ k' kcp kcp' new, Updated hears conv log pos g (g.update m iclock results) m k' kcp kcp' new ∧
      GroupInv hears conv log (Function.update pos m k') (g.update m iclock results) := by
  obtain ⟨kcp, hlive, hnode⟩ := h.member m
  obtain ⟨k', hupd⟩ := hnode.update hbound h.fits iclock
    (fun seg ⟨o, _, hseg⟩ => ⟨_, _, hseg.net⟩) (h.read hbound hlive hnode hread)
  have hdone : Updated hears conv log pos g (g.update m iclock results) m k' kcp
      (handleReceive (ikcpUpdate kcp iclock).1 results).1
      (handleReceive (ikcpUpdate kcp iclock).1 results).2 := by
    refine ⟨hlive, hupd, ?_, ?_, ?_⟩ <;> rw [Group.update, hlive.update_eq]
  refine ⟨k', kcp, _, _, hdone, h.fits, ?_, ?_, ?_,
    ?_⟩
  · intro o
    by_cases ho : o = m
    · subst ho
      refine ⟨_, ⟨?_, hdone.block, hupd.inv.setup⟩, ?_⟩
      · rw [hdone.nodes, Function.update_self]
        exact hlive.init
      · rw [Function.update_self]
        exact hupd.inv
    · rw [hdone.other ho, Function.update_of_ne ho]
      exact h.member o
  · intro i
    by_cases ho : Member.receiver i = m
    · rw [hdone.nodes, ho, Function.update_self]
      exact ho ▸ h.callback i
    · rw [hdone.other ho]
      exact h.callback i
  · intro i kcp' hkcp'
    by_cases ho : Member.receiver i = m
    · subst ho
      obtain rfl := Option.some.inj (hdone.block.symm.trans hkcp')
      exact hupd.idle (h.idle i kcp hlive.block)
    · rw [hdone.other ho] at hkcp'
      exact h.idle i kcp' hkcp'
  · intro o data hmem
    have hmono : ∀ sn : UInt32, sn.toNat < 2 ^ 31 → g.Accepted o sn →
        (g.update m iclock results).Accepted o sn := fun sn hsn => hdone.mono hsn
    rw [Group.update, hlive.update_eq] at hmem
    rcases List.mem_append.mp hmem with hmem | hmem
    · exact (h.net o data hmem).imp fun seg hseg =>
        hseg.mono (List.prefix_refl _) hmono hbound
    · obtain ⟨data', hdata', heq⟩ := List.mem_map.mp hmem
      obtain ⟨rfl, rfl⟩ := Prod.mk.inj heq
      exact (h.sent hbound hlive hnode iclock data' hdata').imp fun seg hseg =>
        hseg.mono (List.prefix_refl _) hmono hbound

/-! ## The sender at work -/

/-- What the sender has given up is acknowledged, so some member has it. -/
theorem Sending.update (h : Sending hears conv pos g) (hbound : g.created < 2 ^ 31)
    (hread : results.all (readable hears (g.update m iclock results).net m) = true) :
    ∃ k' new, Sending hears conv (Function.update pos m k') (g.update m iclock results) ∧
      g.accepted.take k' = g.accepted.take (pos m) ++ new ∧
      (g.update m iclock results).accepted = g.accepted ∧
      (g.update m iclock results).delivered = Function.update g.delivered m
        (g.delivered m ++ if (g.node m).dataCallback then new else []) := by
  obtain ⟨k', kcp, kcp', new, hupd, hinv⟩ := h.inv.update hbound hread
  generalize g.update m iclock results = g' at *
  refine ⟨k', new, ⟨hupd.accepted ▸ hinv, ?_, ?_, ?_⟩,
    hupd.node.new, hupd.accepted, hupd.delivered⟩
  · intro last hlast
    rw [hupd.accepted]
    by_cases ho : Member.sender = m
    · subst ho
      obtain rfl := Option.some.inj (hupd.block.symm.trans hlast)
      exact hupd.node.snd _ hbound (h.sender kcp hupd.live.block)
    · rw [hupd.other ho] at hlast
      exact h.sender last hlast
  · intro i
    rw [hupd.accepted, hupd.delivered]
    by_cases ho : Member.receiver i = m
    · subst ho
      rw [Function.update_self, Function.update_self, h.inv.callback i, if_pos rfl,
        h.delivered i]
      exact hupd.node.new.symm
    · rw [Function.update_of_ne ho, Function.update_of_ne ho]
      exact h.delivered i
  · intro sn hgone
    obtain ⟨last, hlast, hfreed⟩ := hgone
    have holds : g.Released sn ∨ (sn.toNat < 2 ^ 31 ∧
        ∃ o, hears .sender o = true ∧ g.Accepted o sn) := by
      by_cases ho : Member.sender = m
      · subst ho
        obtain rfl := Option.some.inj (hupd.block.symm.trans hlast)
        rcases hupd.node.freed sn hfreed with hold | ⟨seg, ⟨o, hhear, hseg⟩, hacks⟩
        · exact Or.inl ⟨kcp, hupd.live.block, hold⟩
        · have hnxt := (hupd.node.snd _ hbound (h.sender kcp hupd.live.block)).nxt
          have hsn : sn.toNat < 2 ^ 31 :=
            Nat.lt_trans hfreed.1 (Nat.lt_of_le_of_lt hnxt hbound)
          exact Or.inr ⟨hsn, o, hhear, hseg.net.acks hhear hbound hsn hacks⟩
      · rw [hupd.other ho] at hlast
        exact Or.inl ⟨last, hlast, hfreed⟩
    have hmember : sn.toNat < 2 ^ 31 ∧ ∃ o, hears .sender o = true ∧ g.Accepted o sn := by
      rcases holds with ⟨old, hold, hfreed'⟩ | hnew
      · have hnxt := (h.sender old hold).nxt
        exact ⟨Nat.lt_trans hfreed'.1 (Nat.lt_of_le_of_lt hnxt hbound),
          h.released sn ⟨old, hold, hfreed'⟩⟩
      · exact hnew
    obtain ⟨hsn, o, hhear, htaken⟩ := hmember
    exact ⟨o, hhear, hupd.mono hsn htaken⟩

/-- The group once `send` has queued `segs` for `data`. -/
def Group.queued (g : Group ι) (kcp : Ikcpcb) (segs : List IkcpSeg) (data : Bytes) : Group ι :=
  { g with
    node := Function.update g.node .sender
      { g.node .sender with kcp := some (queueSnd kcp segs) }
    accepted := g.accepted ++ [data] }

section Queued

variable {kcp : Ikcpcb} {segs : List IkcpSeg} {data : Bytes}

theorem Group.queued_self : (g.queued kcp segs data).node .sender
    = { g.node .sender with kcp := some (queueSnd kcp segs) } := by
  simp only [Group.queued, Function.update_self]

theorem Group.queued_sender : ((g.queued kcp segs data).node .sender).kcp
    = some (queueSnd kcp segs) := by
  rw [Group.queued_self]

theorem Group.queued_other {o : Member ι} (ho : o ≠ .sender) :
    (g.queued kcp segs data).node o = g.node o := Function.update_of_ne ho _ _

theorem Group.accepted_queued (hblock : (g.node .sender).kcp = some kcp) {o : Member ι}
    {sn : UInt32} (h : g.Accepted o sn) : (g.queued kcp segs data).Accepted o sn := by
  by_cases ho : o = .sender
  · subst ho
    obtain ⟨old, hold, htaken⟩ := h
    obtain rfl : kcp = old := Option.some.inj (hblock.symm.trans hold)
    exact ⟨_, Group.queued_sender, htaken.congr rfl⟩
  · rwa [Group.Accepted, Group.queued_other ho]

theorem Sending.queued (h : Sending hears conv pos g) (hblock : (g.node .sender).kcp = some kcp)
    (hfits : Fits data) (hsegs : segs.map IkcpSeg.frag = Fragment.fragments groupMss data)
    (hbound : span groupMss (g.accepted ++ [data]) < 2 ^ 31) :
    Sending hears conv pos (g.queued kcp segs data) := by
  have hmono {o : Member ι} {sn : UInt32} : g.Accepted o sn →
      (g.queued kcp segs data).Accepted o sn := Group.accepted_queued hblock
  have hsnd := h.sender kcp hblock
  have hbound' : span groupMss g.accepted < 2 ^ 31 := by
    rw [span_append] at hbound
    omega
  refine ⟨⟨?_, ?_, ?_, ?_,
    ?_⟩, ?_, ?_, ?_⟩
  · intro m hm
    rcases List.mem_append.mp hm with hm | hm
    · exact h.inv.fits m hm
    · exact List.mem_singleton.mp hm ▸ hfits
  · intro o
    obtain ⟨old, hlive, hnode⟩ := h.inv.member o
    by_cases ho : o = .sender
    · subst ho
      obtain rfl : kcp = old := Option.some.inj (hblock.symm.trans hlive.block)
      have hnode' := hnode.send hsnd hsegs
      refine ⟨_, ⟨?_, Group.queued_sender, hnode'.setup⟩, hnode'⟩
      rw [Group.queued_self]
      exact hlive.init
    · rw [Group.queued_other ho]
      refine ⟨old, hlive, hnode.extend ?_ data⟩
      cases o with
      | sender => exact absurd rfl ho
      | receiver i => exact h.inv.idle i old hlive.block
  · intro i
    rw [Group.queued_other (by simp)]
    exact h.inv.callback i
  · intro i last hlast
    rw [Group.queued_other (by simp)] at hlast
    exact h.inv.idle i last hlast
  · intro o d hmem
    exact (h.inv.net o d hmem).imp fun seg hseg =>
      hseg.mono (List.prefix_append _ _) (fun sn _ => hmono) hbound'
  · intro last hlast
    obtain rfl := Option.some.inj (Group.queued_sender.symm.trans hlast)
    exact hsnd.send hsegs
  · intro i
    obtain ⟨old, -, hnode⟩ := h.inv.member (.receiver i)
    exact (h.delivered i).trans (List.take_append_of_le_length hnode.rcv.le).symm
  · intro sn hgone
    obtain ⟨last, hlast, hlt, hnone⟩ := hgone
    obtain rfl := Option.some.inj (Group.queued_sender.symm.trans hlast)
    obtain ⟨o, hhear, htaken⟩ := h.released sn ⟨kcp, hblock, hlt, hnone⟩
    exact ⟨o, hhear, hmono htaken⟩

end Queued

theorem Group.send_refused {data : Bytes}
    (h : (g.node .sender).send (some data) (UInt64.ofNat data.length) = (g.node .sender, false)) :
    g.send data = g := by
  rw [Group.send, h]
  simp only [Function.update_eq_self]
  rfl

theorem Sending.send (h : Sending hears conv pos g) {data : Bytes} (hlen : data.length < 2 ^ 31)
    (hbound : (g.send data).created < 2 ^ 31) :
    Sending hears conv pos (g.send data) := by
  obtain ⟨kcp, hlive, hnode⟩ := h.inv.member .sender
  rcases hlive.send data hlen with ⟨-, hfits, segs, hsegs, heq⟩ | ⟨-, heq⟩
  · have hsend : g.send data = g.queued kcp segs data := by
      rw [Group.send, heq]
      rfl
    rw [hsend] at hbound ⊢
    exact h.queued hlive.block hfits hsegs hbound
  · rwa [Group.send_refused heq]

/-! ## Runs -/

theorem Group.accepted_send (g : Group ι) (data : Bytes) :
    (g.send data).accepted = g.accepted ∨ (g.send data).accepted = g.accepted ++ [data] := by
  unfold Group.send
  simp only
  split
  · exact Or.inr rfl
  · exact Or.inl rfl

theorem Group.created_mono {e : Event ι} (h : g.step hears e = some g') :
    g.created ≤ g'.created := by
  cases e with
  | send data =>
      simp only [Group.step, Option.ite_none_right_eq_some, Option.some.injEq] at h
      obtain ⟨-, rfl⟩ := h
      rw [Group.created, Group.created]
      rcases g.accepted_send data with heq | heq
      · rw [heq]
      · rw [heq, span_append]
        exact Nat.le_add_right _ _
  | update m iclock results =>
      simp only [Group.step, Option.ite_none_right_eq_some, Option.some.injEq] at h
      obtain ⟨-, rfl⟩ := h
      exact Nat.le_refl _

/-- The purpose of a group: the accepted messages are published, and each
receiver's callback takes them in order. -/
def Group.broadcast (g : Group ι) : OrderedLog.State ι Bytes :=
  ⟨g.accepted, g.delivered ∘ .receiver⟩

/-- One event keeps the invariant and is matched by steps of the broadcast. -/
theorem Sending.step (h : Sending hears conv pos g) {e : Event ι}
    (hstep : g.step hears e = some g') (hbound : g'.created < 2 ^ 31) :
    (∃ pos', Sending hears conv pos' g') ∧
      Relation.ReflTransGen OrderedLog.Step g.broadcast g'.broadcast := by
  have hle := Group.created_mono hstep
  cases e with
  | send data =>
      simp only [Group.step, Option.ite_none_right_eq_some, Option.some.injEq] at hstep
      obtain ⟨hlen, rfl⟩ := hstep
      refine ⟨⟨pos, h.send hlen hbound⟩, ?_⟩
      have hdelivered : (g.send data).delivered = g.delivered := rfl
      rw [Group.broadcast, Group.broadcast, hdelivered]
      rcases g.accepted_send data with heq | heq
      · rw [heq]
      · rw [heq]
        exact .single (.publish ⟨_, _⟩ data)
  | update m iclock results =>
      simp only [Group.step, Option.ite_none_right_eq_some, Option.some.injEq] at hstep
      obtain ⟨hread, rfl⟩ := hstep
      obtain ⟨k', new, hnext, htake, haccepted, hdelivered⟩ :=
        h.update (Nat.lt_of_le_of_lt hle hbound) hread
      refine ⟨⟨_, hnext⟩, ?_⟩
      rw [Group.broadcast, Group.broadcast, haccepted, hdelivered]
      cases m with
      | sender => rw [Function.update_comp_eq_of_forall_ne _ _ fun i => by simp]
      | receiver i =>
          have hprefix : (g.delivered ∘ Member.receiver) i ++ new <+: g.accepted := by
            rw [Function.comp_apply, h.delivered i, ← htake]
            exact List.take_prefix _ _
          rw [h.inv.callback i, if_pos rfl,
            Function.update_comp_eq_of_injective _ fun _ _ heq => Member.receiver.inj heq]
          exact OrderedLog.deliver_many hprefix

theorem Group.sending_of_run {es : List (Event ι)} (hfresh : g.Fresh conv)
    (hrun : Machine.run (Group.step hears) g es = some g') (hbound : g'.created < 2 ^ 31) :
    ∃ pos, Sending hears conv pos g' := by
  have hkeep (s : Group ι) (e : Event ι) (s' : Group ι) (h : ∃ pos, Sending hears conv pos s)
      (hstep : s.step hears e = some s') (hb : s'.created < 2 ^ 31) :
      ∃ pos, Sending hears conv pos s' := by
    obtain ⟨pos, h⟩ := h
    exact (h.step hstep hb).1
  exact Machine.run_invariant_below (fun _ _ _ => Group.created_mono) hkeep hrun
    ⟨_, hfresh.sending⟩ hbound

/-- Every run is a run of the ordered broadcast. -/
theorem Group.run_refines {es : List (Event ι)} (hfresh : g.Fresh conv)
    (hrun : Machine.run (Group.step hears) g es = some g') (hbound : g'.created < 2 ^ 31) :
    Relation.ReflTransGen OrderedLog.Step g.broadcast g'.broadcast := by
  have hkeep (s : Group ι) (e : Event ι) (s' : Group ι) (h : ∃ pos, Sending hears conv pos s)
      (hstep : s.step hears e = some s') (hb : s'.created < 2 ^ 31) :
      (∃ pos, Sending hears conv pos s') ∧
        Relation.ReflTransGen OrderedLog.Step s.broadcast s'.broadcast := by
    obtain ⟨pos, h⟩ := h
    exact h.step hstep hb
  exact Machine.run_refines (fun _ _ _ => Group.created_mono) hkeep hrun
    ⟨_, hfresh.sending⟩ hbound

end CppDemos
