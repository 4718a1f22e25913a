import CppDemos.Transfer.Directory

/-!
# The sender program

`main` of `sender.cpp`: it initialises a wrapper, sends a file or a directory
and returns 0 if that went well, after waiting for a second. The wrapper only
transmits in `update`, which the program never calls, so whatever it has
accepted goes with the destructor, however long the program waits. It ends with
nothing lost just if there was nothing to send (`all_transmitted_iff`).
-/

namespace CppDemos

open LexPath LinkDisk

/-! ## Definitions -/

/-- A run of the program: the wrapper after `init`, what was called on it, and
the exit code, `none` if the program does not end. -/
structure SenderRun where
  start : KCPWrapper
  sender : Sender
  exit : Option Int

def exitCode : ErrorCode → Int
  | .success => 0
  | _ => -1

def senderMain (host : Host) (pad : List Name → CharArray 3) (env : InitEnv)
    (multicastIP path : Bytes) : SenderRun :=
  let (kcp, ok) := KCPWrapper.init {} env multicastIP 12345 (mainConv ||| 0x80000000)
  let s : Sender := { wrapper := kcp }
  if !ok then { start := kcp, sender := s, exit := some (-1) }
  else if (host.directoryAt (host.lookup path)).isSome then
    let run := sendDirectory host pad s path
    { start := kcp, sender := run.sender, exit := run.result.map exitCode }
  else if (host.fileAt (host.lookup path)).isSome then
    match sendFile host (pad []) s path with
    | none => { start := kcp, sender := s, exit := none }
    | some (s, result) => { start := kcp, sender := s, exit := some (exitCode result) }
  else { start := kcp, sender := s, exit := some (-1) }

/-- The datagrams passed to `udp_output` during the calls. -/
def KCPWrapper.transmitted (w : KCPWrapper) : List Call → List Bytes
  | [] => []
  | .send data len :: cs => (w.send data len).1.transmitted cs
  | .update iclock results :: cs =>
      (w.update iclock results).2.1 ++ (w.update iclock results).1.transmitted cs

/-- Every segment of every message that was accepted has been in a datagram. -/
def SenderRun.AllTransmitted (run : SenderRun) : Prop :=
  ∀ (i : Nat) (frag : Fragment.Frag UInt8),
    (Fragment.stream groupMss run.sender.accepted)[i]? = some frag →
    ∃ segs, datagram segs ∈ run.start.transmitted run.sender.calls ∧
      ∃ seg ∈ segs, seg.cmd = ikcpCmdPush ∧ seg.sn = UInt32.ofNat i ∧ seg.frag = frag

/-! ## Nothing is transmitted -/

theorem transmitted_sends (w : KCPWrapper) (messages : List Bytes) :
    w.transmitted (messages.map fun m => .send (some m) (UInt64.ofNat m.length)) = [] := by
  induction messages generalizing w with
  | nil => rfl
  | cons m messages ih => exact ih _

theorem stream_ne_nil {messages : List Bytes} (h : messages ≠ []) :
    Fragment.stream groupMss messages ≠ [] := by
  obtain ⟨m, messages, rfl⟩ := List.exists_cons_of_ne_nil h
  intro hnil
  have hlen := congrArg List.length hnil
  rw [Fragment.stream_cons, List.length_append, Fragment.length_fragments] at hlen
  have hpos := Fragment.count_pos (show 0 < groupMss by decide) m.length
  rw [List.length_nil] at hlen
  omega

/-- After calls of `send` alone, all is transmitted just if there is nothing. -/
theorem allTransmitted_iff {conv : UInt32} {w : KCPWrapper} {s : Sender} {exit : Option Int}
    {messages : List Bytes} (h : Accepts conv { wrapper := w } s messages) :
    SenderRun.AllTransmitted ⟨w, s, exit⟩ ↔ messages = [] := by
  have hcalls : s.calls = messages.map fun m => .send (some m) (UInt64.ofNat m.length) := h.calls
  have haccepted : s.accepted = messages := h.accepted
  rw [SenderRun.AllTransmitted, hcalls, haccepted, transmitted_sends]
  constructor
  · intro hall
    by_contra hne
    obtain ⟨frag, rest, hstream⟩ := List.exists_cons_of_ne_nil (stream_ne_nil hne)
    obtain ⟨segs, hmem, -⟩ := hall 0 frag (by rw [hstream]; rfl)
    cases hmem
  · rintro rfl i frag hfrag
    cases hfrag

/-! ## Runs that return 0 -/

variable {host : Host}

theorem sendDirectory_success {conv : UInt32} {s : Sender}
    (hlive : ∃ kcp, s.wrapper.Live conv kcp) {pad : List Name → CharArray 3} {dirpath : Bytes}
    (h : (sendDirectory host pad s dirpath).result = some .success) :
    ∃ dir messages, host.directoryAt (host.lookup dirpath) = some dir ∧
      Accepts conv s (sendDirectory host pad s dirpath).sender messages ∧
      (messages = [] ↔
        ∀ e ∈ host.disk.entries dir, host.fileAt (host.lookupEntry dirpath e) = none) := by
  rw [sendDirectory] at h ⊢
  cases hdir : host.directoryAt (host.lookup dirpath) with
  | none =>
      rw [hdir] at h
      cases h
  | some dir =>
      rw [hdir] at h
      obtain ⟨messages, hacc, hiff⟩ := sendEntries_success hlive pad dirpath dir _ h
      exact ⟨dir, messages, rfl, hacc, hiff⟩

theorem sendFile_success {conv : UInt32} {s s' : Sender}
    (hlive : ∃ kcp, s.wrapper.Live conv kcp) {pad : CharArray 3} {filepath : Bytes}
    (h : sendFile host pad s filepath = some (s', .success)) :
    ∃ messages, messages ≠ [] ∧ Accepts conv s s' messages := by
  rw [sendFile] at h
  cases hfile : host.fileAt (host.lookup filepath) with
  | none =>
      rw [hfile] at h
      cases h
  | some file =>
      rw [hfile] at h
      rcases sendFileInternal_turns hlive pad file (filename filepath) with
        ⟨-, hfails⟩ | ⟨-, s1, messages, heq, hchunked, hacc⟩
      · exact absurd h (hfails s')
      · simp only at h
        rw [heq] at h
        obtain rfl : s1 = s' := congrArg Prod.fst (Option.some.inj h)
        refine ⟨messages, ?_, hacc⟩
        rintro rfl
        exact Nat.succ_ne_zero _ hchunked.length.symm

/-- If `main` returns 0, everything that was accepted has been transmitted just
if the path is a directory without a regular file in it, so that nothing was
accepted. -/
theorem all_transmitted_iff {pad : List Name → CharArray 3} {env : InitEnv}
    {multicastIP path : Bytes} (h : (senderMain host pad env multicastIP path).exit = some 0) :
    (senderMain host pad env multicastIP path).AllTransmitted ↔
      ∃ dir, host.directoryAt (host.lookup path) = some dir ∧
        ∀ e ∈ host.disk.entries dir, host.fileAt (host.lookupEntry path e) = none := by
  have hexit (code : ErrorCode) (h : exitCode code = 0) : code = .success := by
    cases code with
    | success => rfl
    | _ => cases h
  rw [senderMain] at h ⊢
  rcases hinit : KCPWrapper.init {} env multicastIP 12345 (mainConv ||| 0x80000000) with ⟨w, ok⟩
  rw [hinit] at h
  simp only at h ⊢
  cases ok with
  | false => cases h
  | true =>
      obtain ⟨mem, hlive⟩ := live_of_init hinit
      simp only [Bool.not_true, Bool.false_eq_true, if_false] at h ⊢
      split at h
      · rename_i hdir
        rw [if_pos hdir]
        obtain ⟨code, hres, hcode⟩ := Option.map_eq_some_iff.mp h
        obtain rfl := hexit code hcode
        obtain ⟨dir, messages, hdir, hacc, hiff⟩ :=
          sendDirectory_success (s := { wrapper := w }) ⟨_, hlive⟩ hres
        rw [allTransmitted_iff hacc, hiff, hdir]
        constructor
        · exact fun hnone => ⟨dir, rfl, hnone⟩
        · rintro ⟨dir', hdir', hnone⟩
          obtain rfl := Option.some.inj hdir'
          exact hnone
      · rename_i hdir
        rw [if_neg hdir]
        split at h
        · rename_i hfile
          rw [if_pos hfile]
          cases hres : sendFile host (pad []) { wrapper := w } path with
          | none =>
              rw [hres] at h
              cases h
          | some r =>
              obtain ⟨s', code⟩ := r
              rw [hres] at h
              obtain rfl := hexit code (Option.some.inj h)
              obtain ⟨messages, hne, hacc⟩ :=
                sendFile_success (s := { wrapper := w }) ⟨_, hlive⟩ hres
              simp only
              rw [allTransmitted_iff hacc]
              refine ⟨fun hnil => absurd hnil hne, ?_⟩
              rintro ⟨dir, hsome, -⟩
              rw [hsome] at hdir
              exact absurd rfl hdir
        · cases h

/-- The program on the directory `d` with a file and a link in it. -/
def linkedRun : SenderRun :=
  senderMain linkedHost (fun _ => .zero 3) .granted mainGroup [100]

theorem linkedRun_exit : linkedRun.exit = some 0 := by decide +kernel

theorem all_transmitted_iff_linked :
    linkedRun.AllTransmitted ↔
      ∃ dir, linkedHost.directoryAt (linkedHost.lookup [100]) = some dir ∧
        ∀ e ∈ linkedHost.disk.entries dir,
          linkedHost.fileAt (linkedHost.lookupEntry [100] e) = none :=
  all_transmitted_iff linkedRun_exit

/-- It returns 0 and has transmitted nothing of the two files. -/
theorem accepted_not_transmitted :
    ¬ ∀ (host : Host) (pad : List Name → CharArray 3) (env : InitEnv) (multicastIP path : Bytes),
      (senderMain host pad env multicastIP path).exit = some 0 →
      (senderMain host pad env multicastIP path).AllTransmitted := by
  intro h
  have hall : linkedRun.AllTransmitted := h _ _ _ _ _ linkedRun_exit
  have hnone : linkedRun.start.transmitted linkedRun.sender.calls = [] := by decide +kernel
  have hfirst : ((Fragment.stream groupMss linkedRun.sender.accepted)[0]?).isSome := by
    decide +kernel
  obtain ⟨frag, hfrag⟩ := Option.isSome_iff_exists.mp hfirst
  obtain ⟨segs, hmem, -⟩ := hall 0 frag hfrag
  rw [hnone] at hmem
  cases hmem

end CppDemos
