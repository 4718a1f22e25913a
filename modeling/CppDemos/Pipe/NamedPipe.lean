import CppDemos.Lib.CString

/-!
# name_pipe_read.cpp and name_pipe_write.cpp

The writer writes one message over and over, with its zero. The reader prints what its buffer
holds after each `read`, up to the first zero, whatever the `read` returned: it does not see
where a message ends, nor the end of the file.

So it prints one message for each only if every `read` returns one whole message
(`framed_iff`). A chunk without a zero would leave a later one that begins inside a message
and is not printed as one (`nul_mem_chunk`); and a chunk with two messages leaves too few
for the others.
-/

namespace CppDemos

open CString

/-! ## The writer -/

def helloText : List UInt8 := [104, 101, 108, 108, 111, 32, 104, 117, 97, 110, 106, 117, 110]

/-- What one `write` puts into the pipe. -/
def message : List UInt8 := helloText ++ [0]

/-- What `n` of them do. -/
def written (n : Nat) : List UInt8 := (List.replicate n message).flatten

/-! ## The reader -/

def pipeBufSize : Nat := 1024

inductive ReadResult where
  | error
  | bytes (data : Chunk UInt8 pipeBufSize)
  /-- All writers have closed the pipe, and it is empty. -/
  | endOfFile

/-- What `printf` prints after `"Received: "`; or a fault. -/
def readLoop (buffer : List UInt8) : List ReadResult → Except Overrun (List (List UInt8))
  | [] => .ok []
  | .error :: _ => .ok []
  | .bytes c :: results => do
      let buffer := c.into buffer
      let text ← readStr 0 buffer
      let more ← readLoop buffer results
      return text :: more
  | .endOfFile :: results => do
      let text ← readStr 0 buffer
      let more ← readLoop buffer results
      return text :: more

/-- The buffer is not initialised. -/
def reader (buffer : Vector UInt8 pipeBufSize) (results : List ReadResult) :
    Except Overrun (List (List UInt8)) :=
  readLoop buffer.toList results

/-- The chunks of the stream, and then `k` times the end of the file. -/
def reads (chunks : List (Chunk UInt8 pipeBufSize)) (k : Nat) : List ReadResult :=
  chunks.map .bytes ++ List.replicate k .endOfFile

/-! ## What is printed -/

theorem written_eq_frames (n : Nat) : written n = frames 0 (List.replicate n helloText) := by
  rw [written, frames, List.map_replicate]
  rfl

theorem length_written (n : Nat) : (written n).length = message.length * n := by
  simp [written, Nat.mul_comm]

theorem readLoop_bytes {buffer : List UInt8} {c : Chunk UInt8 pipeBufSize}
    {results : List ReadResult} {printed : List (List UInt8)} :
    readLoop buffer (.bytes c :: results) = .ok printed ↔
      ∃ text, readStr 0 (c.into buffer) = .ok text ∧
        ∃ more, readLoop (c.into buffer) results = .ok more ∧ text :: more = printed := by
  simp [readLoop, bind_eq_ok, pure, Except.pure]

theorem readLoop_endOfFile {buffer : List UInt8} {results : List ReadResult}
    {printed : List (List UInt8)} :
    readLoop buffer (.endOfFile :: results) = .ok printed ↔
      ∃ text, readStr 0 buffer = .ok text ∧
        ∃ more, readLoop buffer results = .ok more ∧ text :: more = printed := by
  simp [readLoop, bind_eq_ok, pure, Except.pure]

theorem length_printed_end : ∀ {k : Nat} {buffer : List UInt8} {printed : List (List UInt8)},
    readLoop buffer (List.replicate k .endOfFile) = .ok printed → printed.length = k
  | 0, _, _, h => by
      obtain rfl := Except.ok.inj h
      rfl
  | k + 1, _, _, h => by
      obtain ⟨text, -, more, hmore, rfl⟩ := readLoop_endOfFile.mp h
      simp [length_printed_end hmore]

theorem length_printed : ∀ {chunks : List (Chunk UInt8 pipeBufSize)} {k : Nat}
    {buffer : List UInt8} {printed : List (List UInt8)},
    readLoop buffer (reads chunks k) = .ok printed → printed.length = chunks.length + k
  | [], _, _, _, h => by simpa using length_printed_end h
  | c :: chunks, k, _, _, h => by
      obtain ⟨text, -, more, hmore, rfl⟩ := readLoop_bytes.mp h
      have hlength := length_printed hmore
      simp only [List.length_cons, hlength]
      omega

theorem upTo_mem_printed : ∀ {chunks : List (Chunk UInt8 pipeBufSize)} {k : Nat}
    {buffer : List UInt8} {printed : List (List UInt8)},
    readLoop buffer (reads chunks k) = .ok printed →
      ∀ c ∈ chunks, 0 ∈ c.data → upTo 0 c.data ∈ printed
  | [], _, _, _, _, _, hc, _ => nomatch hc
  | c :: chunks, k, buffer, _, h, c', hc', hzero => by
      obtain ⟨text, htext, more, hmore, rfl⟩ := readLoop_bytes.mp h
      rcases List.mem_cons.mp hc' with rfl | hin
      · rw [Chunk.into, readStr_of_mem (List.mem_append_left _ hzero), upTo_append hzero] at htext
        exact Except.ok.inj htext ▸ List.mem_cons_self ..
      · exact List.mem_cons_of_mem _ (upTo_mem_printed hmore c' hin hzero)

theorem readLoop_messages : ∀ {chunks : List (Chunk UInt8 pipeBufSize)} (buffer : List UInt8),
    (∀ c ∈ chunks, c.data = message) →
      readLoop buffer (reads chunks 0) = .ok (List.replicate chunks.length helloText)
  | [], _, _ => rfl
  | c :: chunks, buffer, h => by
      obtain ⟨hc, hchunks⟩ := List.forall_mem_cons.mp h
      have hno : 0 ∉ helloText := by decide
      have hzero : 0 ∈ c.data := by simp [hc, message]
      have htext : readStr 0 (c.into buffer) = .ok helloText := by
        rw [Chunk.into, readStr_of_mem (List.mem_append_left _ hzero), upTo_append hzero, hc,
          message, upTo_append_nul hno]
      exact readLoop_bytes.mpr ⟨_, htext, _, readLoop_messages _ hchunks, rfl⟩

/-! ## Framing -/

/-- One print for each message and no other; each is part of what the reads so far have
returned, and none is made once the file has ended. -/
structure Framed (n : Nat) (chunks : List (Chunk UInt8 pipeBufSize))
    (printed : List (List UInt8)) : Prop where
  texts : printed = List.replicate n helloText
  contained : ∀ i text, printed[i]? = some text → text <:+: (chunks.take (i + 1)).flatMap (·.data)
  quiet : printed.drop chunks.length = []

variable {chunks : List (Chunk UInt8 pipeBufSize)} {n : Nat}

theorem length_le_flatMap {m : Nat} : ∀ {chunks : List (Chunk UInt8 pipeBufSize)},
    (∀ c ∈ chunks, m ≤ c.data.length) →
      m * chunks.length ≤ (chunks.flatMap (·.data)).length
  | [], _ => by simp
  | c :: chunks, h => by
      obtain ⟨hc, hchunks⟩ := List.forall_mem_cons.mp h
      have hrest := length_le_flatMap hchunks
      rw [List.flatMap_cons, List.length_append, List.length_cons, Nat.mul_succ]
      omega

theorem length_eq_of_flatMap {m : Nat} : ∀ {chunks : List (Chunk UInt8 pipeBufSize)},
    (∀ c ∈ chunks, m ≤ c.data.length) →
      (chunks.flatMap (·.data)).length ≤ m * chunks.length → ∀ c ∈ chunks, c.data.length = m
  | [], _, _, _, hc => nomatch hc
  | c :: chunks, h, hsum, c', hc' => by
      obtain ⟨hc, hchunks⟩ := List.forall_mem_cons.mp h
      have hrest := length_le_flatMap hchunks
      rw [List.flatMap_cons, List.length_append, List.length_cons, Nat.mul_succ] at hsum
      rcases List.mem_cons.mp hc' with rfl | hin
      · omega
      · exact length_eq_of_flatMap hchunks (by omega) c' hin

theorem zero_mem_chunk (hstream : chunks.flatMap (·.data) = written n)
    (htext : ∀ c ∈ chunks, 0 ∈ c.data → upTo 0 c.data = helloText) :
    ∀ c ∈ chunks, 0 ∈ c.data := by
  have hbound : ∀ s ∈ List.replicate n helloText, s.length ≤ helloText.length := by
    intro s hs
    rw [List.eq_of_mem_replicate hs]
  have hne : ∀ c ∈ chunks.map (·.data), c ≠ [] := by
    intro c hc
    obtain ⟨c, -, rfl⟩ := List.mem_map.mp hc
    exact List.length_pos_iff.mp c.pos
  have hlong : ∀ c ∈ chunks.map (·.data), 0 ∈ c → helloText.length ≤ (upTo 0 c).length := by
    intro c hc hzero
    obtain ⟨c, hin, rfl⟩ := List.mem_map.mp hc
    rw [htext c hin hzero]
  have hall := nul_mem_chunk (hstream.trans (written_eq_frames n)) hbound hne hlong
  exact fun c hc => hall c.data (List.mem_map_of_mem hc)

theorem message_begins {c : Chunk UInt8 pipeBufSize} (hzero : 0 ∈ c.data)
    (htext : upTo 0 c.data = helloText) : message <+: c.data := by
  obtain ⟨rest, hrest⟩ := eq_upTo_append hzero
  rw [htext] at hrest
  exact ⟨rest, by simp [message, ← hrest]⟩

theorem chunks_of_texts (hstream : chunks.flatMap (·.data) = written n)
    {buffer : List UInt8} {printed : List (List UInt8)}
    (hrun : readLoop buffer (reads chunks 0) = .ok printed)
    (htexts : printed = List.replicate n helloText) : ∀ c ∈ chunks, c.data = message := by
  have htext : ∀ c ∈ chunks, 0 ∈ c.data → upTo 0 c.data = helloText := fun c hc hzero =>
    List.eq_of_mem_replicate (htexts ▸ upTo_mem_printed hrun c hc hzero)
  have hbegin : ∀ c ∈ chunks, message <+: c.data := fun c hc =>
    have hzero := zero_mem_chunk hstream htext c hc
    message_begins hzero (htext c hc hzero)
  have hcount : chunks.length = n := by
    have hlength := length_printed hrun
    rw [htexts, List.length_replicate] at hlength
    omega
  -- there are as many chunks as messages, so none of them has anything behind its message
  have hlength : ∀ c ∈ chunks, c.data.length = message.length :=
    length_eq_of_flatMap (fun c hc => (hbegin c hc).length_le)
      (by rw [hstream, length_written, hcount])
  exact fun c hc => ((hbegin c hc).eq_of_length (hlength c hc).symm).symm

theorem flatMap_of_messages : ∀ {chunks : List (Chunk UInt8 pipeBufSize)},
    (∀ c ∈ chunks, c.data = message) → chunks.flatMap (·.data) = written chunks.length
  | [], _ => rfl
  | c :: chunks, h => by
      obtain ⟨hc, hchunks⟩ := List.forall_mem_cons.mp h
      rw [List.flatMap_cons, hc, flatMap_of_messages hchunks]
      simp [written, List.replicate_succ]

theorem helloText_infix_written (i : Nat) : helloText <:+: written (i + 1) := by
  refine ⟨[], 0 :: written i, ?_⟩
  simp [written, List.replicate_succ, message]

/-- The reader prints every message once and nothing else, exactly as long as every `read`
returns one whole message and none has come to the end of the file. -/
theorem framed_iff (buffer : Vector UInt8 pipeBufSize) {k : Nat}
    (h : chunks.flatMap (·.data) = written n) :
    (∃ printed, reader buffer (reads chunks k) = .ok printed ∧ Framed n chunks printed) ↔
      k = 0 ∧ ∀ c ∈ chunks, c.data = message := by
  constructor
  · rintro ⟨printed, hrun, hframed⟩
    have hlength := length_printed hrun
    have hquiet := List.drop_eq_nil_iff.mp hframed.quiet
    obtain rfl : k = 0 := by omega
    exact ⟨rfl, chunks_of_texts h hrun hframed.texts⟩
  · rintro ⟨rfl, hchunks⟩
    have hcount : chunks.length = n := by
      have hlength := congrArg List.length (h.symm.trans (flatMap_of_messages hchunks))
      rw [length_written, length_written] at hlength
      exact (Nat.eq_of_mul_eq_mul_left (by decide) hlength).symm
    refine ⟨_, readLoop_messages _ hchunks, by rw [hcount], fun i text htext => ?_, by simp⟩
    obtain ⟨hlt, rfl⟩ := List.getElem?_eq_some_iff.mp htext
    rw [List.length_replicate] at hlt
    have htake : ∀ c ∈ chunks.take (i + 1), c.data = message :=
      fun c hc => hchunks c (List.mem_of_mem_take hc)
    rw [flatMap_of_messages htake, List.length_take, Nat.min_eq_left hlt, List.getElem_replicate]
    exact helloText_infix_written i

def messageChunk : Chunk UInt8 pipeBufSize where
  data := message
  pos := by decide
  le := by decide

theorem two_framed : ∃ printed,
    reader (.replicate pipeBufSize 0) (reads [messageChunk, messageChunk] 0) = .ok printed ∧
      Framed 2 [messageChunk, messageChunk] printed :=
  (framed_iff _ rfl).mpr ⟨rfl, by simp [messageChunk]⟩

/-- There is one print for each `read`. -/
theorem not_framed_of_length {buffer : Vector UInt8 pipeBufSize} {k : Nat}
    (h : chunks.length + k ≠ n) :
    ¬ ∃ printed, reader buffer (reads chunks k) = .ok printed ∧ Framed n chunks printed := by
  rintro ⟨printed, hrun, hframed⟩
  have hlength := length_printed hrun
  rw [hframed.texts, List.length_replicate] at hlength
  exact h hlength.symm

/-- Two messages in one `read`. -/
def twoMessages : Chunk UInt8 pipeBufSize where
  data := message ++ message
  pos := by decide
  le := by decide

/-- The second of them is not printed; and a message at whose end the file ends is printed once
more. -/
theorem coalesced_not_framed :
    (¬ ∃ printed, reader (.replicate pipeBufSize 0) (reads [twoMessages] 0) = .ok printed ∧
      Framed 2 [twoMessages] printed) ∧
    ¬ ∃ printed, reader (.replicate pipeBufSize 0) (reads [messageChunk] 1) = .ok printed ∧
      Framed 1 [messageChunk] printed :=
  ⟨not_framed_of_length (by decide), not_framed_of_length (by decide)⟩

end CppDemos
