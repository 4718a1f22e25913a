import CppDemos.Lib.Machine
import CppDemos.Wrapper.Calls

/-!
# The life cycle of a wrapper

The sockets and control blocks a wrapper has obtained and not given back, over
any series of calls from the constructor to the destructor. `init` gives nothing
back: where it fails after `socket` the descriptor stays open, and where it is
called again the old descriptor and the old block are forgotten, while
`initialized_` keeps its value.

There are two good kinds of state: nothing obtained (`Unused`), and one socket
and one block that came out of a complete `init` (`InUse`). `life_cycle_iff`
says that a series of calls stays in them exactly if every `init` but the last
fails at `socket` and the last one fails there or passes every step.
-/

namespace CppDemos

open Machine

/-! ## Definitions -/

/-- The steps of `init` behind the choice of an interface succeed. -/
def InitEnv.GrantsGroup (env : InitEnv) (multicastIP : Bytes) (conv : UInt32) : Prop :=
  (inetPton multicastIP).isSome ∧ (isSender conv = true ∨ env.bind = true) ∧
    env.addMembership = true ∧ (ikcpCreate (actualConv conv) env.alloc).isSome

def InitEnv.Grants (env : InitEnv) (multicastIP : Bytes) (conv : UInt32) : Prop :=
  0 ≤ env.socket ∧ env.reuseAddr = true ∧ env.multicastTtl = true ∧
    (env.ifaddrs.bind findInterface).isSome ∧ env.multicastIf = true ∧
    env.GrantsGroup multicastIP conv

instance (env : InitEnv) (multicastIP : Bytes) (conv : UInt32) :
    Decidable (env.Grants multicastIP conv) :=
  have : Decidable (env.GrantsGroup multicastIP conv) := inferInstanceAs (Decidable (_ ∧ _))
  inferInstanceAs (Decidable (_ ∧ _))

/-- An open descriptor; `complete` if it passed every step of the `init` that
obtained it. -/
structure Descriptor where
  fd : Int
  complete : Bool
deriving DecidableEq, Repr

/-- A wrapper, the descriptors it has obtained and not closed, and how many
control blocks it has obtained and not released. -/
structure Life where
  wrapper : KCPWrapper := {}
  sockets : List Descriptor := []
  blocks : Nat := 0

/-- What is called between the constructor and the destructor. -/
inductive LifeCall where
  | init (env : InitEnv) (multicastIP : Bytes) (port : UInt16) (conv : UInt32)
  | call (c : Call)

def LifeCall.IsInit : LifeCall → Prop
  | .init .. => True
  | .call _ => False

/-- Whether the call uses the control block; `send` looks at its arguments
first. -/
def Call.usesBlock : Call → Bool
  | .send data len => data.isSome && len != 0
  | .update _ _ => true

/-- Whether the call reads from the socket. -/
def Call.reads : Call → Bool
  | .send _ _ => false
  | .update _ _ => true

/-- Whether the call can be made and returns: an initialised wrapper without a
control block dereferences a null pointer, and on a descriptor that is not open
`recvfrom` fails with EBADF for ever. -/
def Life.Proceeds (l : Life) (c : Call) : Prop :=
  l.wrapper.initialized = false ∨ c.usesBlock = false ∨
    (l.wrapper.kcp.isSome ∧ (c.reads = true → ∃ s ∈ l.sockets, s.fd = l.wrapper.socketFd))

instance (l : Life) (c : Call) : Decidable (l.Proceeds c) :=
  inferInstanceAs (Decidable (_ ∨ _ ∨ _))

/-- One call; `none` if it does not return, or if `socket` were to return a
descriptor that is still open. -/
def Life.step (l : Life) : LifeCall → Option Life
  | .init env multicastIP port conv =>
      if ∃ s ∈ l.sockets, s.fd = env.socket then none
      else
        let (w, ok) := l.wrapper.init env multicastIP port conv
        some
          { wrapper := w
            sockets :=
              if env.socket < 0 then l.sockets
              else l.sockets ++ [⟨env.socket, decide (env.Grants multicastIP conv)⟩]
            blocks := if ok then l.blocks + 1 else l.blocks }
  | .call c =>
      if l.Proceeds c then some { l with wrapper := (l.wrapper.call c).1 } else none

/-- The destructor: what is still open and allocated after it. -/
def Life.left (l : Life) : List Descriptor × Nat :=
  (if 0 ≤ l.wrapper.socketFd then l.sockets.filter (·.fd ≠ l.wrapper.socketFd) else l.sockets,
    if l.wrapper.kcp.isSome then l.blocks - 1 else l.blocks)

/-! ## What a wrapper should keep to -/

/-- An initialised wrapper has its block and an open descriptor from a complete
`init`, and there is never more than one of each. -/
structure Life.Sound (l : Life) : Prop where
  ready : l.wrapper.initialized = true → l.wrapper.kcp.isSome ∧
    ∃ s ∈ l.sockets, s.fd = l.wrapper.socketFd ∧ s.complete = true
  sockets : l.sockets.length ≤ 1
  blocks : l.blocks ≤ 1

def Life.Refuses (l : Life) : LifeCall → Prop
  | .init env multicastIP port conv => (l.wrapper.init env multicastIP port conv).2 = false
  | .call _ => False

/-- The state before the call is sound, and if the call is an `init` that
returns false, nothing it obtained is left behind. -/
def Life.KeepsTo (l : Life) (c : LifeCall) : Prop :=
  l.Sound ∧ ∀ l', l.step c = some l' → l.Refuses c →
    (∀ s ∈ l'.sockets, s ∈ l.sockets) ∧ l'.blocks ≤ l.blocks

/-- Every state from `l` to the destructor is sound, no `init` that returns
false leaves anything behind, and nothing is left at the end. -/
def LifeCycle (l : Life) (cs : List LifeCall) : Prop :=
  Along Life.step Life.KeepsTo l cs ∧
    ∀ l', run Life.step l cs = some l' → l'.Sound ∧ l'.left = ([], 0)

/-- Every `init` but the last fails at `socket`; the last fails there or passes
every step. -/
def OneInit : List LifeCall → Prop
  | [] => True
  | .init env multicastIP _ conv :: cs =>
      (env.socket < 0 ∧ OneInit cs) ∨ (env.Grants multicastIP conv ∧ ∀ c ∈ cs, ¬ c.IsInit)
  | .call _ :: cs => OneInit cs

/-! ## Single calls -/

variable {w : KCPWrapper} {env : InitEnv} {ip : Bytes} {port : UInt16} {conv : UInt32}

theorem createKcp_cases (w : KCPWrapper) (alloc : Alloc) (conv : UInt32) :
    ((ikcpCreate (actualConv conv) alloc).isSome ∧ ∃ mem, w.createKcp alloc conv =
      ({ w with kcp := some (freshKcp (actualConv conv) mem), initialized := true }, true)) ∨
    ((ikcpCreate (actualConv conv) alloc).isSome = false ∧
      w.createKcp alloc conv = ({ w with kcp := none }, false)) := by
  cases hret : (w.createKcp alloc conv).2 with
  | true =>
      obtain ⟨mem, heq⟩ := createKcp_eq_true (Prod.ext rfl hret)
      refine Or.inl ⟨?_, mem, Prod.ext heq hret⟩
      unfold KCPWrapper.createKcp at hret
      split at hret
      · cases hret
      · rename_i kcp hkcp
        rw [hkcp]
        rfl
  | false =>
      unfold KCPWrapper.createKcp at hret ⊢
      split at hret
      · rename_i hnone
        rw [hnone]
        exact Or.inr ⟨rfl, rfl⟩
      · cases hret

theorem joinGroup_cases (w : KCPWrapper) (env : InitEnv) (iface : UInt32) (ip : Bytes)
    (port : UInt16) (conv : UInt32) :
    (env.GrantsGroup ip conv ∧ ∃ sock addr mem, w.joinGroup env iface ip port conv =
      ({ w with
          kcp := some (freshKcp (actualConv conv) mem)
          socket := sock
          mcastAddr := addr
          initialized := true }, true)) ∨
    (¬ env.GrantsGroup ip conv ∧ ∃ kcp sock addr, (kcp = w.kcp ∨ kcp = none) ∧
      w.joinGroup env iface ip port conv =
        ({ w with kcp := kcp, socket := sock, mcastAddr := addr }, false)) := by
  unfold KCPWrapper.joinGroup
  cases hip : inetPton ip with
  | none =>
      refine Or.inr ⟨?_, w.kcp, w.socket, ⟨0, port⟩, Or.inl rfl, rfl⟩
      rintro ⟨hsome, -⟩
      rw [hip] at hsome
      cases hsome
  | some addr =>
      simp only
      split
      · rename_i hbind
        refine Or.inr ⟨?_, w.kcp, w.socket, ⟨addr, port⟩, Or.inl rfl, rfl⟩
        rintro ⟨-, hrole | hbound, -⟩
        · rw [hbind.1] at hrole
          cases hrole
        · rw [hbind.2] at hbound
          cases hbound
      · rename_i hbind
        have hrole : isSender conv = true ∨ env.bind = true := by
          cases hs : isSender conv with
          | true => exact Or.inl rfl
          | false =>
              cases hb : env.bind with
              | true => exact Or.inr rfl
              | false => exact absurd ⟨hs, hb⟩ hbind
        generalize hw : (if isSender conv = true then
          ({ w with mcastAddr := ⟨addr, port⟩ } : KCPWrapper) else _) = w1
        obtain ⟨sock, rfl⟩ : ∃ sock, w1 =
            { w with socket := sock, mcastAddr := ⟨addr, port⟩ } := by
          rw [← hw]
          split
          · exact ⟨w.socket, rfl⟩
          · exact ⟨_, rfl⟩
        split
        · rename_i hjoin
          refine Or.inr ⟨?_, w.kcp, sock, ⟨addr, port⟩, Or.inl rfl, rfl⟩
          rintro ⟨-, -, hjoined, -⟩
          rw [hjoin] at hjoined
          cases hjoined
        · rename_i hjoin
          rcases createKcp_cases
            { w with socket := sock.join addr iface, mcastAddr := ⟨addr, port⟩ } env.alloc conv
            with ⟨hsome, mem, heq⟩ | ⟨hnone, heq⟩
          · refine Or.inl ⟨⟨by rw [hip]; rfl, hrole, eq_true_of_ne_false hjoin, hsome⟩,
              sock.join addr iface, ⟨addr, port⟩, mem, heq⟩
          · refine Or.inr ⟨?_, none, sock.join addr iface, ⟨addr, port⟩, Or.inr rfl, heq⟩
            rintro ⟨-, -, -, hsome⟩
            rw [hnone] at hsome
            cases hsome

/-- Everything `init` can do: pass every step, or return false with nothing
given back. -/
theorem init_cases (w : KCPWrapper) (env : InitEnv) (ip : Bytes) (port : UInt16)
    (conv : UInt32) :
    (env.Grants ip conv ∧ ∃ sock addr mem, w.init env ip port conv =
      ({ w with
          kcp := some (freshKcp (actualConv conv) mem)
          socketFd := env.socket
          socket := sock
          mcastAddr := addr
          initialized := true }, true)) ∨
    (¬ env.Grants ip conv ∧ ∃ kcp sock addr, (kcp = w.kcp ∨ kcp = none) ∧
      w.init env ip port conv =
        ({ w with kcp := kcp, socketFd := env.socket, socket := sock, mcastAddr := addr },
          false)) := by
  unfold KCPWrapper.init
  simp only
  split
  · rename_i hneg
    exact Or.inr ⟨fun h => absurd h.1 (Int.not_le.mpr hneg), w.kcp, {}, _, Or.inl rfl, rfl⟩
  · rename_i hfd
    split
    · rename_i hreuse
      refine Or.inr ⟨?_, w.kcp, {}, _, Or.inl rfl, rfl⟩
      exact fun h => Bool.false_ne_true (hreuse.symm.trans h.2.1)
    · rename_i hreuse
      split
      · rename_i httl
        refine Or.inr ⟨?_, w.kcp, {}, _, Or.inl rfl, rfl⟩
        exact fun h => Bool.false_ne_true (httl.symm.trans h.2.2.1)
      · rename_i httl
        cases hiface : env.ifaddrs.bind findInterface with
        | none =>
            refine Or.inr ⟨?_, w.kcp, {}, _, Or.inl rfl, rfl⟩
            intro h
            have hsome := h.2.2.2.1
            rw [hiface] at hsome
            cases hsome
        | some iface =>
            simp only
            split
            · rename_i hif
              refine Or.inr ⟨?_, w.kcp, {}, _, Or.inl rfl, rfl⟩
              exact fun h => Bool.false_ne_true (hif.symm.trans h.2.2.2.2.1)
            · rename_i hif
              rcases joinGroup_cases { w with socketFd := env.socket, socket := {} } env iface ip
                port conv with ⟨hgroup, sock, addr, mem, heq⟩ | ⟨hgroup, kcp, sock, addr, hkcp, heq⟩
              · refine Or.inl ⟨⟨Int.not_lt.mp hfd, eq_true_of_ne_false hreuse,
                  eq_true_of_ne_false httl, by rw [hiface]; rfl,
                  eq_true_of_ne_false hif, hgroup⟩, sock, addr, mem, heq⟩
              · exact Or.inr ⟨fun h => hgroup h.2.2.2.2.2, kcp, sock, addr, hkcp, heq⟩

theorem call_of_not_live (h : w.initialized = false ∨ w.kcp = none) (c : Call) :
    (w.call c).1 = w := by
  cases c with
  | send data len =>
      simp only [KCPWrapper.call, KCPWrapper.send]
      rcases h with hinit | hblock
      · rw [if_pos (Or.inl hinit)]
      · rw [hblock]
        split <;> rfl
  | update iclock results =>
      simp only [KCPWrapper.call, KCPWrapper.update]
      rcases h with hinit | hblock
      · rw [if_pos hinit]
      · rw [hblock]
        split <;> rfl

/-! ## Good states -/

structure Life.Unused (l : Life) : Prop where
  init : l.wrapper.initialized = false
  block : l.wrapper.kcp = none
  sockets : l.sockets = []
  blocks : l.blocks = 0

/-- One socket and one block, from a complete `init`, which are exactly those
that the destructor gives back. From here on only another `init` can spoil it. -/
structure Life.InUse (l : Life) : Prop where
  live : ∃ conv kcp, l.wrapper.Live conv kcp
  fd : 0 ≤ l.wrapper.socketFd
  sockets : l.sockets = [⟨l.wrapper.socketFd, true⟩]
  blocks : l.blocks = 1

variable {l l' : Life}

theorem Life.Unused.sound (h : l.Unused) : l.Sound where
  ready := fun hinit => absurd (hinit.symm.trans h.init) (by decide)
  sockets := by rw [h.sockets]; exact Nat.zero_le 1
  blocks := by rw [h.blocks]; exact Nat.zero_le 1

theorem Life.Unused.left (h : l.Unused) : l.left = ([], 0) := by
  simp [Life.left, h.sockets, h.block, h.blocks]

theorem Life.InUse.sound (h : l.InUse) : l.Sound where
  ready := fun _ => by
    obtain ⟨conv, kcp, hlive⟩ := h.live
    rw [hlive.block, h.sockets]
    exact ⟨rfl, _, List.mem_singleton_self _, rfl, rfl⟩
  sockets := by rw [h.sockets]; exact Nat.le_refl 1
  blocks := by rw [h.blocks]

theorem Life.InUse.left (h : l.InUse) : l.left = ([], 0) := by
  obtain ⟨conv, kcp, hlive⟩ := h.live
  simp [Life.left, h.fd, h.sockets, h.blocks, hlive.block]

theorem step_init (h : l.step (.init env ip port conv) = some l') :
    l'.wrapper = (l.wrapper.init env ip port conv).1 ∧
      l'.sockets = (if env.socket < 0 then l.sockets
        else l.sockets ++ [⟨env.socket, decide (env.Grants ip conv)⟩]) ∧
      l'.blocks = (if (l.wrapper.init env ip port conv).2 then l.blocks + 1 else l.blocks) := by
  rw [Life.step] at h
  split at h
  · cases h
  · obtain rfl := Option.some.inj h
    exact ⟨rfl, rfl, rfl⟩

theorem Life.Unused.step_init_failed (h : l.Unused) (hfd : env.socket < 0)
    (hstep : l.step (.init env ip port conv) = some l') : l'.Unused := by
  obtain ⟨hw, hsockets, hblocks⟩ := step_init hstep
  rw [if_pos hfd] at hsockets
  rcases init_cases l.wrapper env ip port conv with
    ⟨hgrants, -⟩ | ⟨-, kcp, sock, addr, hkcp, heq⟩
  · exact absurd hgrants.1 (Int.not_le.mpr hfd)
  · rw [heq] at hw hblocks
    refine ⟨?_, ?_, hsockets.trans h.sockets, hblocks.trans h.blocks⟩
    · rw [hw]
      exact h.init
    · rw [hw]
      exact hkcp.elim (fun hk => hk.trans h.block) id

theorem Life.Unused.step_init_granted (h : l.Unused) (hgrants : env.Grants ip conv)
    (hstep : l.step (.init env ip port conv) = some l') : l'.InUse := by
  obtain ⟨hw, hsockets, hblocks⟩ := step_init hstep
  rw [if_neg (Int.not_lt.mpr hgrants.1), h.sockets, decide_eq_true hgrants,
    List.nil_append] at hsockets
  rcases init_cases l.wrapper env ip port conv with
    ⟨-, sock, addr, mem, heq⟩ | ⟨hnot, -⟩
  · rw [heq] at hw hblocks
    have hlive : l'.wrapper.Live (actualConv conv) (freshKcp (actualConv conv) mem) := by
      rw [hw]
      exact ⟨rfl, rfl, (freshKcp_spec _ mem).1⟩
    refine ⟨⟨_, _, hlive⟩, ?_, ?_, ?_⟩
    · rw [hw]
      exact hgrants.1
    · rw [hsockets, hw]
    · rw [hblocks, h.blocks]
      rfl
  · exact absurd hgrants hnot

theorem Life.Unused.keepsTo_failed (h : l.Unused) (hfd : env.socket < 0) :
    l.KeepsTo (.init env ip port conv) := by
  refine ⟨h.sound, ?_⟩
  intro l' hstep _
  have hunused := h.step_init_failed hfd hstep
  rw [hunused.sockets, hunused.blocks]
  exact ⟨fun s hs => (nomatch hs), Nat.zero_le _⟩

theorem Life.Unused.keepsTo_granted (h : l.Unused) (hgrants : env.Grants ip conv) :
    l.KeepsTo (.init env ip port conv) := by
  refine ⟨h.sound, ?_⟩
  intro l' _ hrefuses
  rcases init_cases l.wrapper env ip port conv with ⟨-, sock, addr, mem, heq⟩ | ⟨hnot, -⟩
  · rw [Life.Refuses, heq] at hrefuses
    cases hrefuses
  · exact absurd hgrants hnot

/-- An `init` that obtains a socket and then fails keeps it. -/
theorem Life.Unused.step_init_leaks (h : l.Unused) (hfd : 0 ≤ env.socket)
    (hnot : ¬ env.Grants ip conv) (hstep : l.step (.init env ip port conv) = some l') :
    ¬ l.KeepsTo (.init env ip port conv) := by
  rintro ⟨-, hkeeps⟩
  obtain ⟨-, hsockets, -⟩ := step_init hstep
  rcases init_cases l.wrapper env ip port conv with
    ⟨hgrants, -⟩ | ⟨-, kcp, sock, addr, -, heq⟩
  · exact hnot hgrants
  · have hrefuses : l.Refuses (.init env ip port conv) := by rw [Life.Refuses, heq]
    have hold := (hkeeps l' hstep hrefuses).1 ⟨env.socket, decide (env.Grants ip conv)⟩ (by
      rw [hsockets, if_neg (Int.not_lt.mpr hfd)]
      exact List.mem_append_right _ (List.mem_singleton_self _))
    rw [h.sockets] at hold
    cases hold

/-- Whatever its outcome, a second `init` spoils the state. -/
theorem Life.InUse.step_init_unsound (h : l.InUse)
    (hstep : l.step (.init env ip port conv) = some l') : ¬ l'.Sound := by
  intro hsound
  obtain ⟨hw, hsockets, -⟩ := step_init hstep
  obtain ⟨conv₀, kcp₀, hlive⟩ := h.live
  by_cases hfd : env.socket < 0
  · rw [if_pos hfd, h.sockets] at hsockets
    rcases init_cases l.wrapper env ip port conv with
      ⟨hgrants, -⟩ | ⟨-, kcp, sock, addr, -, heq⟩
    · exact absurd hgrants.1 (Int.not_le.mpr hfd)
    · -- still initialised, and the descriptor is gone
      rw [heq] at hw
      have hinit : l'.wrapper.initialized = true := by
        rw [hw]
        exact hlive.init
      obtain ⟨-, s, hs, hsfd, -⟩ := hsound.ready hinit
      rw [hsockets, List.mem_singleton] at hs
      rw [hs, hw] at hsfd
      have := h.fd
      simp only at hsfd
      omega
  · have hlen := hsound.sockets
    rw [hsockets, if_neg hfd, h.sockets] at hlen
    simp at hlen

theorem step_call {c : Call} (h : l.step (.call c) = some l') :
    l' = { l with wrapper := (l.wrapper.call c).1 } := by
  rw [Life.step] at h
  split at h
  · exact (Option.some.inj h).symm
  · cases h

theorem Life.Unused.step_call (h : l.Unused) {c : Call} (hstep : l.step (.call c) = some l') :
    l'.Unused := by
  obtain rfl := CppDemos.step_call hstep
  rw [call_of_not_live (Or.inl h.init)]
  exact h

theorem Life.InUse.step_call (h : l.InUse) {c : Call} (hstep : l.step (.call c) = some l') :
    l'.InUse := by
  obtain rfl := CppDemos.step_call hstep
  obtain ⟨conv, kcp, hlive⟩ := h.live
  obtain ⟨kcp', heq, hlive'⟩ := hlive.call c
  refine ⟨⟨conv, kcp', hlive'⟩, ?_, ?_, h.blocks⟩
  · rw [heq]
    exact h.fd
  · rw [heq]
    exact h.sockets

/-! ## Runs -/

theorem lifeCycle_nil (hsound : l.Sound) (hleft : l.left = ([], 0)) : LifeCycle l [] :=
  ⟨trivial, fun _ h => Option.some.inj h ▸ ⟨hsound, hleft⟩⟩

theorem lifeCycle_cons {c : LifeCall} {cs : List LifeCall} (hstep : l.step c = some l') :
    LifeCycle l (c :: cs) ↔ l.KeepsTo c ∧ LifeCycle l' cs := by
  constructor
  · rintro ⟨⟨hkeeps, halong⟩, hend⟩
    exact ⟨hkeeps, halong l' hstep, fun t ht => hend t (run_cons_eq_some.mpr ⟨l', hstep, ht⟩)⟩
  · rintro ⟨hkeeps, halong, hend⟩
    refine ⟨⟨hkeeps, ?_⟩, ?_⟩
    · intro s hs
      obtain rfl := Option.some.inj (hstep.symm.trans hs)
      exact halong
    · intro t ht
      obtain ⟨s, hs, ht⟩ := run_cons_eq_some.mp ht
      obtain rfl := Option.some.inj (hstep.symm.trans hs)
      exact hend t ht

theorem LifeCycle.sound {cs : List LifeCall} {t : Life} (h : LifeCycle l cs)
    (hrun : run Life.step l cs = some t) : l.Sound := by
  cases cs with
  | nil => exact (h.2 l rfl).1
  | cons c cs => exact h.1.1.1

/-- From a wrapper in use on, any series of calls without `init` is good. -/
theorem Life.InUse.lifeCycle_iff {cs : List LifeCall} {t : Life} (h : l.InUse)
    (hrun : run Life.step l cs = some t) : LifeCycle l cs ↔ ∀ c ∈ cs, ¬ c.IsInit := by
  induction cs generalizing l with
  | nil =>
      constructor
      · intro _ c hc
        cases hc
      · exact fun _ => lifeCycle_nil h.sound h.left
  | cons c cs ih =>
      obtain ⟨l', hstep, hrest⟩ := run_cons_eq_some.mp hrun
      rw [lifeCycle_cons hstep]
      cases c with
      | init env ip port conv =>
          constructor
          · exact fun hcycle => absurd (hcycle.2.sound hrest) (h.step_init_unsound hstep)
          · exact fun hno => absurd trivial (hno _ (List.mem_cons_self ..))
      | call c =>
          rw [ih (h.step_call hstep) hrest, List.forall_mem_cons]
          exact and_congr_left fun _ =>
            ⟨fun _ => id, fun _ => ⟨h.sound, fun _ _ hrefuses => hrefuses.elim⟩⟩

theorem Life.Unused.lifeCycle_iff {cs : List LifeCall} {t : Life} (h : l.Unused)
    (hrun : run Life.step l cs = some t) : LifeCycle l cs ↔ OneInit cs := by
  induction cs generalizing l with
  | nil => exact ⟨fun _ => trivial, fun _ => lifeCycle_nil h.sound h.left⟩
  | cons c cs ih =>
      obtain ⟨l', hstep, hrest⟩ := run_cons_eq_some.mp hrun
      rw [lifeCycle_cons hstep]
      cases c with
      | init env ip port conv =>
          constructor
          · rintro ⟨hkeeps, hcycle⟩
            by_cases hfd : env.socket < 0
            · exact Or.inl ⟨hfd, (ih (h.step_init_failed hfd hstep) hrest).mp hcycle⟩
            · by_cases hgrants : env.Grants ip conv
              · exact Or.inr ⟨hgrants,
                  ((h.step_init_granted hgrants hstep).lifeCycle_iff hrest).mp hcycle⟩
              · exact absurd hkeeps (h.step_init_leaks (Int.not_lt.mp hfd) hgrants hstep)
          · rintro (⟨hfd, hone⟩ | ⟨hgrants, hno⟩)
            · exact ⟨h.keepsTo_failed hfd, (ih (h.step_init_failed hfd hstep) hrest).mpr hone⟩
            · exact ⟨h.keepsTo_granted hgrants,
                ((h.step_init_granted hgrants hstep).lifeCycle_iff hrest).mpr hno⟩
      | call c =>
          rw [ih (h.step_call hstep) hrest]
          exact and_iff_right ⟨h.sound, fun _ _ hrefuses => hrefuses.elim⟩

/-- A block is only there in an initialised wrapper, with the settings of `init`. -/
def Life.SetUp (l : Life) : Prop :=
  ∀ kcp, l.wrapper.kcp = some kcp →
    l.wrapper.initialized = true ∧ ∃ conv, kcp.setup = groupSetup conv

theorem Life.SetUp.step (h : l.SetUp) {c : LifeCall} (hstep : l.step c = some l') : l'.SetUp := by
  cases c with
  | init env ip port conv =>
      obtain ⟨hw, -⟩ := step_init hstep
      rw [Life.SetUp, hw]
      rcases init_cases l.wrapper env ip port conv with
        ⟨-, sock, addr, mem, heq⟩ | ⟨-, kcp, sock, addr, hold | hnone, heq⟩
      · rw [heq]
        rintro _ ⟨⟩
        exact ⟨rfl, _, (freshKcp_spec _ mem).1⟩
      · rw [heq, hold]
        exact h
      · rw [heq, hnone]
        exact fun _ hsome => nomatch hsome
  | call c =>
      obtain rfl := step_call hstep
      cases hblock : l.wrapper.kcp with
      | none =>
          rw [call_of_not_live (Or.inr hblock)]
          exact h
      | some kcp =>
          obtain ⟨hinit, conv, hsetup⟩ := h kcp hblock
          obtain ⟨kcp', heq, hlive⟩ := KCPWrapper.Live.call ⟨hinit, hblock, hsetup⟩ c
          intro kcp'' hsome
          obtain rfl := Option.some.inj (hlive.block.symm.trans hsome)
          exact ⟨hlive.init, conv, hlive.setup⟩

/-- In every state that can be reached, however often `init` was called, a wrapper
that has a block is live. -/
theorem reachable_live {cs : List LifeCall} {t : Life} (h : run Life.step {} cs = some t)
    {kcp : Ikcpcb} (hkcp : t.wrapper.kcp = some kcp) : ∃ conv, t.wrapper.Live conv kcp := by
  have hsetup : t.SetUp :=
    run_invariant (fun _ _ _ hl hstep => hl.step hstep) h fun _ hsome => nomatch hsome
  obtain ⟨hinit, conv, heq⟩ := hsetup kcp hkcp
  exact ⟨conv, hinit, hkcp, heq⟩

/-- Over every series of calls that can happen: the wrapper keeps to its life
cycle if and only if every `init` but the last fails at `socket` and the last
one fails there or passes every step. -/
theorem life_cycle_iff {cs : List LifeCall} {t : Life} (h : run Life.step {} cs = some t) :
    LifeCycle {} cs ↔ OneInit cs :=
  Life.Unused.lifeCycle_iff ⟨rfl, rfl, rfl, rfl⟩ h

/-- A host on which only the loopback interface is up. -/
def InitEnv.offline : InitEnv :=
  { granted with ifaddrs := some [⟨"lo", some 0x7F000001, true⟩] }

/-- `init` while no interface is up, and once more when one is. -/
def retried : List LifeCall :=
  [.init .offline mainGroup 12345 mainConv,
    .init { InitEnv.granted with socket := 4 } mainGroup 12345 mainConv]

/-- The socket of the first call is not the one that the destructor closes. -/
theorem retried_leaks :
    (run Life.step {} retried).map (fun l => (l.wrapper.initialized, l.left))
      = some (true, ([⟨3, false⟩], 0)) := by
  decide +kernel

def plain : List LifeCall :=
  [.init .granted mainGroup 12345 mainConv, .call (.send (some [104, 105]) 2), .call (.update 0 [])]

theorem life_cycle_iff_plain : LifeCycle {} plain ↔ OneInit plain := by
  have hsome : (run Life.step {} plain).isSome := by decide +kernel
  obtain ⟨t, ht⟩ := Option.isSome_iff_exists.mp hsome
  exact life_cycle_iff ht

/-- The retry succeeds and leaves a socket open for good. -/
theorem not_every_life_cycle :
    ¬ ∀ (cs : List LifeCall) (t : Life), run Life.step {} cs = some t → LifeCycle {} cs := by
  intro h
  have hretried := retried_leaks
  cases hrun : run Life.step {} retried with
  | none =>
      rw [hrun] at hretried
      cases hretried
  | some t =>
      rw [hrun] at hretried
      have hleft := ((h retried t hrun).2 t hrun).2
      simp only [Option.map_some, Option.some.injEq, Prod.mk.injEq] at hretried
      rw [hleft] at hretried
      exact absurd hretried.2 (by decide)

end CppDemos
