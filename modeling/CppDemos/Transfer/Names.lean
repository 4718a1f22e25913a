import CppDemos.Transfer.Confine
import CppDemos.Transfer.Stream

/-!
# The name in the header

A path travels in a field of 256 bytes: `strncpy` keeps the first 255 and says
nothing of the rest, and the receiver knows a file by what arrives. So a path
comes back as it was sent just if it has at most 255 bytes, and two paths end up
in one file when their first 255 bytes lead to the same place. They do not if that
place is always a directory by the time it is opened (`NamesFile`).
-/

namespace CppDemos

open LexPath FileTree FileReceiver

/-! ## Definitions -/

/-- A call of `sendFileInternal`: its arguments, and what it meets. -/
structure SendCall where
  wrapper : KCPWrapper
  relativePath : Bytes
  file : Option InStream
  pad : CharArray 3
  progress : Progress

/-- The call after so many turns. -/
def SendCall.run (c : SendCall) (turns : Nat) : ChunkRun :=
  sendStream c.pad c.relativePath c.progress c.file turns c.wrapper

/-- A buffer it passes to `send`. -/
def SendCall.Sends (c : SendCall) (message : Bytes) : Prop :=
  ∃ turns, message ∈ (c.run turns).messages

def SendCall.Succeeds (c : SendCall) : Prop :=
  ∃ turns, (c.run turns).outcome = .returned .success

/-- The wrapper is live or not initialised, and the path is a C string. -/
structure SendCall.Proper (c : SendCall) : Prop where
  wrapper : c.wrapper.initialized = true → ∃ conv kcp, c.wrapper.Live conv kcp
  zero : 0 ∉ c.relativePath

/-- Under no circumstances are messages of both written to one file. -/
def SendCall.Apart (savePath : Bytes) (c d : SendCall) : Prop :=
  ∀ fs fs' m m' l, IsTree fs → IsTree fs' → Ready savePath fs → Ready savePath fs' →
    c.Sends m.data → d.Sends m'.data →
    (onDataReceived savePath fs m).Wrote l → ¬ (onDataReceived savePath fs' m').Wrote l

variable {header : FileHeader} {fails : Bool} {progress : Progress}

theorem sendReads_messages :
    ∀ (turns i : Nat) (reads : List Bytes) (w : KCPWrapper),
      ∀ m ∈ (sendReads header fails progress turns i reads w).messages,
        ∃ chunk, m = header.bytes ++ chunk
  | 0, _, _, _, m, hm => nomatch hm
  | turns + 1, i, reads, w, m, hm => by
      simp only [sendReads] at hm
      split at hm
      · cases hm
      · split at hm
        · exact ⟨_, List.mem_singleton.mp hm⟩
        · split at hm
          · exact ⟨_, List.mem_singleton.mp hm⟩
          · rcases List.mem_cons.mp hm with rfl | hm
            · exact ⟨_, rfl⟩
            · exact sendReads_messages turns (i + 1) _ _ m hm

theorem SendCall.Sends.eq_header {c : SendCall} {message : Bytes} (h : c.Sends message) :
    ∃ filesize chunk, message = (fileHeader c.pad c.relativePath filesize).bytes ++ chunk := by
  obtain ⟨turns, hmem⟩ := h
  unfold SendCall.run sendStream at hmem
  split at hmem
  · cases hmem
  · exact ⟨_, sendReads_messages _ _ _ _ _ hmem⟩

theorem SendCall.Sends.filename {c : SendCall} {m : Arrival} (h : c.Sends m.data)
    (hzero : 0 ∉ c.relativePath) : ¬ m.Dropped ∧ m.filename = c.relativePath.take 255 := by
  obtain ⟨filesize, chunk, heq⟩ := h.eq_header
  constructor
  · rintro (hshort | hmagic)
    · rw [heq, List.length_append, FileHeader.length_bytes] at hshort
      omega
    · rw [heq] at hmagic
      exact hmagic (magicOf_bytes _ chunk)
  · rw [Arrival.filename, heq]
    exact filenameOf_header c.pad filesize hzero chunk m.behind

variable {c d : SendCall}

theorem SendCall.live_sends {file : InStream} (hfile : c.file = some file)
    {conv : UInt32} (hlive : ∃ kcp, c.wrapper.Live conv kcp) : ∃ message, c.Sends message := by
  have hgo : ¬ (file.reads = [] ∧ file.fails = false) := fun h => file.nonempty h.1
  obtain ⟨w', -, hturn⟩ := sendReads_turn (fileHeader c.pad c.relativePath (sizeT file.tellg))
    c.progress hlive file.read_le hgo 0
  refine ⟨(fileHeader c.pad c.relativePath (sizeT file.tellg)).bytes ++ file.reads.headD [], 1, ?_⟩
  simp only [SendCall.run, hfile, sendStream]
  rw [hturn]
  split
  · exact List.mem_singleton_self _
  · exact List.mem_cons_self ..

/-! ## One path -/

theorem opened_leastFs {savePath : Bytes} {m : Arrival} (h : ¬ m.Dropped) (hne : savePath ≠ []) :
    (onDataReceived savePath (leastFs savePath) m).opened =
      some (locate (m.fullPath savePath)) := by
  rw [onDataReceived_opened h hne fun p _ => isFile_leastFs savePath p]

theorem SendCall.Succeeds.sends (h : c.Succeeds) (hc : c.Proper) : ∃ message, c.Sends message := by
  obtain ⟨turns, hsuccess⟩ := h
  cases hfile : c.file with
  | none =>
      simp only [SendCall.run, hfile, sendStream] at hsuccess
      cases hsuccess
  | some file =>
      cases hinit : c.wrapper.initialized with
      | true =>
          obtain ⟨conv, hlive⟩ := hc.wrapper hinit
          exact c.live_sends hfile hlive
      | false =>
          simp only [SendCall.run, hfile, sendStream] at hsuccess
          cases turns with
          | zero => cases hsuccess
          | succ turns =>
              rw [sendReads_uninitialized _ _ _ hinit file.nonempty] at hsuccess
              cases hsuccess

end CppDemos
