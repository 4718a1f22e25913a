import CppDemos.Lib.CString

/-!
# sock_server_navie.cpp: client_handler

What it does with what `recv` returns, one result after the other. Both buffers are set to
zero before each `recv`, so that a reply depends on its own chunk only. The chunk is printed
and put behind `"server: "` as a string: it is too long for that from 1016 bytes without a
zero on, and with 1024 of them it is not even a string in `read_buf`.
-/

namespace CppDemos

open CString

/-! ## Definitions -/

/-- `sizeof(read_buf)`, and `sizeof(write_buf)`. -/
def bufSize : Nat := 1024

inductive ClientRecv where
  | error
  | close
  | chunk (data : Chunk UInt8 bufSize)

inductive EchoOutput where
  | cout (text : String) (data : List UInt8)
  | send (data : List UInt8)

structure EchoBuffers where
  read_buf : List UInt8
  write_buf : List UInt8

def memset (buf : List UInt8) (b : UInt8) (n : Nat) : List UInt8 :=
  List.replicate n b ++ buf.drop n

/-- `"server: "` -/
def serverText : List UInt8 := [115, 101, 114, 118, 101, 114, 58, 32]

/-- From the printing of what was received to the `send`. -/
def reply (bufs : EchoBuffers) : Except Overrun (List EchoOutput × EchoBuffers) := do
  let shown ← readStr 0 bufs.read_buf
  let write_buf ← strcat 0 bufs.write_buf (serverText ++ [0])
  let write_buf ← strcat 0 write_buf bufs.read_buf
  let sent ← readStr 0 write_buf
  return ([.cout "recv:" shown, .send sent], { bufs with write_buf := write_buf })

/-- The loop; it waits where the results end. -/
def clientLoop (bufs : EchoBuffers) : List ClientRecv → Except Overrun (List EchoOutput)
  | [] => .ok [.cout "wait recv" []]
  | .error :: _ => .ok [.cout "wait recv" [], .cout "recv over" [], .cout "recv error" []]
  | .close :: _ => .ok [.cout "wait recv" [], .cout "recv over" [], .cout "client close" []]
  | .chunk c :: results => do
      let read_buf := memset bufs.read_buf 0 bufSize
      let write_buf := memset bufs.write_buf 0 bufSize
      let (out, bufs) ← reply ⟨c.into read_buf, write_buf⟩
      let more ← clientLoop bufs results
      return .cout "wait recv" [] :: .cout "recv over" [] :: out ++ more

/-- The two arrays are locals that are not initialised. -/
def clientHandler (read_buf write_buf : Vector UInt8 bufSize) (results : List ClientRecv) :
    Except Overrun (List EchoOutput) :=
  clientLoop ⟨memset read_buf.toList 0 bufSize, memset write_buf.toList 0 bufSize⟩ results

/-- What `recv` delivers until it fails or the client closes. -/
def received : List ClientRecv → List (Chunk UInt8 bufSize)
  | .chunk c :: results => c :: received results
  | _ => []

def sent (out : List EchoOutput) : List (List UInt8) :=
  out.filterMap fun
    | .cout _ _ => none
    | .send data => some data

/-! ## One round -/

/-- The reply to it, and a zero, have room in `write_buf`. -/
def ReplyFits (c : Chunk UInt8 bufSize) : Prop := (serverText ++ upTo 0 c.data).length < bufSize

/-- Both arrays have their size. -/
structure EchoBuffers.Sized (bufs : EchoBuffers) : Prop where
  read_buf : bufs.read_buf.length = bufSize
  write_buf : bufs.write_buf.length = bufSize

theorem memset_all {buf : List UInt8} (h : buf.length = bufSize) :
    memset buf 0 bufSize = held 0 bufSize [] := by
  rw [memset, List.drop_of_length_le (Nat.le_of_eq h), List.append_nil]
  rfl

theorem zero_not_mem_serverText : 0 ∉ serverText := by decide

theorem length_serverText : serverText.length < bufSize := by decide

theorem strcat_serverText :
    strcat 0 (held 0 bufSize []) (serverText ++ [0]) = .ok (held 0 bufSize serverText) := by
  have hsrc : readStr 0 (serverText ++ [0]) = .ok serverText := rfl
  exact strcat_held List.not_mem_nil hsrc length_serverText

theorem reply_of_replyFits {c : Chunk UInt8 bufSize} (h : ReplyFits c) :
    ∃ bufs : EchoBuffers, bufs.Sized ∧ reply ⟨c.into (held 0 bufSize []), held 0 bufSize []⟩ =
      .ok ([.cout "recv:" (upTo 0 c.data), .send (serverText ++ upTo 0 c.data)], bufs) := by
  have hlt : (upTo 0 c.data).length < bufSize := by
    rw [ReplyFits, List.length_append] at h
    omega
  have hread := c.readStr_into_held hlt
  have hno : 0 ∉ serverText ++ upTo 0 c.data := by
    simp [zero_not_mem_serverText, nul_not_mem_upTo]
  refine ⟨⟨c.into (held 0 bufSize []), held 0 bufSize (serverText ++ upTo 0 c.data)⟩,
    ⟨c.length_into (length_held (Nat.zero_le _)), length_held (Nat.le_of_lt h)⟩, ?_⟩
  simp only [reply, hread, strcat_serverText, ok_bind,
    strcat_held zero_not_mem_serverText hread h, readStr_held hno h]
  rfl

theorem reply_of_not_replyFits {c : Chunk UInt8 bufSize} (h : ¬ ReplyFits c) :
    ∃ fault, reply ⟨c.into (held 0 bufSize []), held 0 bufSize []⟩ = .error fault := by
  by_cases hlt : (upTo 0 c.data).length < bufSize
  · have hread := c.readStr_into_held hlt
    have hfull := strcat_held_of_full zero_not_mem_serverText length_serverText hread
      (Nat.not_lt.mp h)
    refine ⟨.write, ?_⟩
    simp only [reply, hread, strcat_serverText, ok_bind, hfull, error_bind]
  · have hread := c.readStr_into_of_le (Nat.not_lt.mp hlt) (held 0 bufSize [])
      (length_held (Nat.zero_le _))
    refine ⟨.read, ?_⟩
    simp only [reply, hread, error_bind]

/-! ## The loop -/

theorem clientLoop_of_replyFits {bufs : EchoBuffers} (hbufs : bufs.Sized) {c : Chunk UInt8 bufSize}
    (h : ReplyFits c) (results : List ClientRecv) :
    ∃ bufs' : EchoBuffers, bufs'.Sized ∧
      clientLoop bufs (.chunk c :: results) = (clientLoop bufs' results).map fun more =>
        [.cout "wait recv" [], .cout "recv over" [], .cout "recv:" (upTo 0 c.data),
          .send (serverText ++ upTo 0 c.data)] ++ more := by
  obtain ⟨bufs', hsized, hreply⟩ := reply_of_replyFits h
  refine ⟨bufs', hsized, ?_⟩
  rw [clientLoop, memset_all hbufs.read_buf, memset_all hbufs.write_buf, hreply]
  cases hmore : clientLoop bufs' results with
  | error fault => simp [hmore, Except.map]
  | ok more => simp [hmore, Except.map, pure, Except.pure]

theorem clientLoop_of_not_replyFits {bufs : EchoBuffers} (hbufs : bufs.Sized)
    {c : Chunk UInt8 bufSize} (h : ¬ ReplyFits c) (results : List ClientRecv) :
    ∃ fault, clientLoop bufs (.chunk c :: results) = .error fault := by
  obtain ⟨fault, hreply⟩ := reply_of_not_replyFits h
  refine ⟨fault, ?_⟩
  rw [clientLoop, memset_all hbufs.read_buf, memset_all hbufs.write_buf, hreply]
  rfl

/-- There is no fault, and what is sent are the answers to the chunks. -/
def Answered (run : Except Overrun (List EchoOutput)) (results : List ClientRecv) : Prop :=
  ∃ out, run = .ok out ∧
    sent out = (received results).map fun c => serverText ++ upTo 0 c.data

theorem answered_chunk {run : Except Overrun (List EchoOutput)} {c : Chunk UInt8 bufSize}
    {results : List ClientRecv} :
    Answered (run.map fun more => [.cout "wait recv" [], .cout "recv over" [],
        .cout "recv:" (upTo 0 c.data), .send (serverText ++ upTo 0 c.data)] ++ more)
      (.chunk c :: results) ↔ Answered run results := by
  cases run with
  | error fault => simp [Answered, Except.map]
  | ok more => simp [Answered, Except.map, sent, received]

theorem not_answered_error {fault : Overrun} {results : List ClientRecv} :
    ¬ Answered (.error fault) results := by
  rintro ⟨out, hout, -⟩
  cases hout

theorem answered_iff_replyFits : ∀ (results : List ClientRecv) {bufs : EchoBuffers}, bufs.Sized →
    (Answered (clientLoop bufs results) results ↔ ∀ c ∈ received results, ReplyFits c)
  | [], _, _ => by simp [Answered, clientLoop, sent, received]
  | .error :: _, _, _ => by simp [Answered, clientLoop, sent, received]
  | .close :: _, _, _ => by simp [Answered, clientLoop, sent, received]
  | .chunk c :: results, _, hbufs => by
      rw [received, List.forall_mem_cons]
      by_cases h : ReplyFits c
      · obtain ⟨bufs', hsized, hloop⟩ := clientLoop_of_replyFits hbufs h results
        rw [hloop, answered_chunk, answered_iff_replyFits results hsized]
        exact (and_iff_right h).symm
      · obtain ⟨fault, hloop⟩ := clientLoop_of_not_replyFits hbufs h results
        rw [hloop]
        exact iff_of_false not_answered_error fun hall => h hall.1

theorem sized_memset (read_buf write_buf : Vector UInt8 bufSize) :
    EchoBuffers.Sized ⟨memset read_buf.toList 0 bufSize, memset write_buf.toList 0 bufSize⟩ where
  read_buf := by rw [memset_all read_buf.length_toList, length_held (Nat.zero_le _)]
  write_buf := by rw [memset_all write_buf.length_toList, length_held (Nat.zero_le _)]

/-- `client_handler` stays inside its buffers and answers every chunk with the prefix and the
chunk up to its first zero, exactly if each of these answers and a zero fit in 1024 bytes. -/
theorem echoed_iff (read_buf write_buf : Vector UInt8 bufSize) (results : List ClientRecv) :
    Answered (clientHandler read_buf write_buf results) results ↔
      ∀ c ∈ received results, ReplyFits c :=
  answered_iff_replyFits results (sized_memset read_buf write_buf)

def longChunk : Chunk UInt8 bufSize where
  data := List.replicate 1016 97
  pos := by rw [List.length_replicate]; decide
  le := by rw [List.length_replicate]; decide

theorem not_replyFits_longChunk : ¬ ReplyFits longChunk := by
  have hno : (0 : UInt8) ∉ longChunk.data := fun h =>
    absurd (List.eq_of_mem_replicate h) (by decide)
  have hlength : longChunk.data.length = 1016 := List.length_replicate
  rw [ReplyFits, upTo_eq_self hno, List.length_append, hlength]
  decide

/-- The answer to them is written behind the end of `write_buf`. -/
theorem long_chunk_not_echoed :
    ¬ Answered (clientHandler (.replicate bufSize 0) (.replicate bufSize 0) [.chunk longChunk])
      [.chunk longChunk] := by
  obtain ⟨fault, hloop⟩ := clientLoop_of_not_replyFits
    (sized_memset (.replicate bufSize 0) (.replicate bufSize 0)) not_replyFits_longChunk []
  rw [clientHandler, hloop]
  exact not_answered_error

end CppDemos
