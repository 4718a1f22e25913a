import CppDemos.Group.Invariant

/-!
# What a group guarantees

Two consequences of the joint invariant for every run, whatever the network
does. At every receiver the messages delivered are a prefix of those accepted
at the sender (`delivered_prefix_of_accepted`). A segment the sender has given
up has been accepted by some member it hears (`released_accepted`), but with
two receivers not by both: `ikcp_input` keeps one state of acknowledgement for
all of them (`released_not_accepted_by_all`).
-/

namespace CppDemos

variable {ι : Type} [DecidableEq ι] {hears : Member ι → Member ι → Bool} {conv : UInt32}
  {g g' : Group ι} {es : List (Event ι)}

/-! ## Delivery -/

/-- In-order, exactly-once, unmodified delivery to every receiver. -/
theorem delivered_prefix_of_accepted (hfresh : g.Fresh conv)
    (hrun : Machine.run (Group.step hears) g es = some g') (hbound : g'.created < 2 ^ 31)
    (i : ι) : g'.delivered (.receiver i) <+: g'.accepted := by
  have hstart : g.broadcast.Ordered := by
    intro j
    have hnone : g.broadcast.delivered j = [] := hfresh.delivered _
    rw [hnone]
    exact List.nil_prefix
  exact OrderedLog.delivered_prefix (Group.run_refines hfresh hrun hbound) hstart i

/-- One message to two receivers: the first one reads it and acknowledges it,
the sender reads the acknowledgement. -/
def oneMessage : List (Event (Fin 2)) :=
  let push := datagram [{ conv := mainConv, cmd := ikcpCmdPush, wnd := 128, data := [1] }]
  let ack := datagram [{ conv := mainConv, cmd := ikcpCmdAck, wnd := 128, una := 1 }]
  [.send [1], .update .sender 0 [], .update (.receiver 0) 0 [.datagram push],
    .update (.receiver 0) 10 [], .update .sender 10 [.datagram ack]]

/-- How it ends: the sender has given the segment up, and the second receiver
has not seen it. -/
theorem oneMessage_end :
    ∃ g', Machine.run (Group.step fun _ _ => true) (programs (Fin 2)) oneMessage = some g' ∧
      g'.accepted = [[1]] ∧ g'.delivered (.receiver 0) = [[1]] ∧ g'.Released 0 ∧
      ¬ g'.Accepted (.receiver 1) 0 := by
  let obs (g : Group (Fin 2)) : List Bytes × List Bytes × Option Bool × Option Bool :=
    (g.accepted, g.delivered (.receiver 0),
      (g.node .sender).kcp.map fun kcp => decide (Freed kcp 0),
      (g.node (.receiver 1)).kcp.map fun kcp => decide (Taken kcp 0))
  have hobs : (Machine.run (Group.step fun _ _ => true) (programs (Fin 2)) oneMessage).map obs
      = some ([[1]], [[1]], some true, some false) := by decide +kernel
  obtain ⟨g', hrun, heq⟩ := Option.map_eq_some_iff.mp hobs
  simp only [obs, Prod.mk.injEq, Option.map_eq_some_iff] at heq
  obtain ⟨hacc, hdel, ⟨snd, hsnd, hfreed⟩, rcv, hrcv, htaken⟩ := heq
  refine ⟨g', hrun, hacc, hdel, ⟨snd, hsnd, of_decide_eq_true hfreed⟩, ?_⟩
  rintro ⟨kcp, hkcp, hhas⟩
  obtain rfl : rcv = kcp := Option.some.inj (hrcv.symm.trans hkcp)
  exact of_decide_eq_false htaken hhas

theorem created_one {g' : Group (Fin 2)} (h : g'.accepted = [[1]]) : g'.created < 2 ^ 31 := by
  rw [Group.created, h]
  decide +kernel

theorem delivered_prefix_of_accepted_one :
    ∃ g', Machine.run (Group.step fun _ _ => true) (programs (Fin 2)) oneMessage = some g' ∧
      ∀ i, g'.delivered (.receiver i) <+: g'.accepted := by
  obtain ⟨g', hrun, hacc, -⟩ := oneMessage_end
  exact ⟨g', hrun, delivered_prefix_of_accepted (programs_fresh _) hrun (created_one hacc)⟩

/-! ## Release -/

/-- What the sender has numbered and no longer buffers, some member it hears
has accepted. -/
theorem released_accepted (hfresh : g.Fresh conv)
    (hrun : Machine.run (Group.step hears) g es = some g') (hbound : g'.created < 2 ^ 31)
    {sn : UInt32} (hgone : g'.Released sn) :
    ∃ m, hears .sender m = true ∧ g'.Accepted m sn := by
  obtain ⟨pos, h⟩ := Group.sending_of_run hfresh hrun hbound
  exact h.released sn hgone

theorem released_accepted_one :
    ∃ g', Machine.run (Group.step fun _ _ => true) (programs (Fin 2)) oneMessage = some g' ∧
      ∃ m, g'.Accepted m 0 := by
  obtain ⟨g', hrun, hacc, -, hgone, -⟩ := oneMessage_end
  obtain ⟨m, -, htaken⟩ := released_accepted (programs_fresh _) hrun (created_one hacc) hgone
  exact ⟨g', hrun, m, htaken⟩

/-- With two receivers the sender gives a segment up that one of them lacks. -/
theorem released_not_accepted_by_all :
    ¬ ∀ (g g' : Group (Fin 2)) (es : List (Event (Fin 2))) (conv : UInt32), g.Fresh conv →
      Machine.run (Group.step fun _ _ => true) g es = some g' → g'.created < 2 ^ 31 →
      ∀ sn, g'.Released sn → ∀ i, g'.Accepted (.receiver i) sn := by
  intro h
  obtain ⟨g', hrun, hacc, -, hgone, hnot⟩ := oneMessage_end
  exact hnot (h _ g' oneMessage _ (programs_fresh _) hrun (created_one hacc) 0 hgone 1)

end CppDemos
