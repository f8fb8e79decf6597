/-
# The connection loop

The loop of the runtimes that write a pre-built response, as a machine. At
the head of the loop the buffer is compacted and grown, then one read is
issued; after it the requests in the buffer are decoded one by one, each is
metered and answered with the response, and where the decoder fails the loop
goes back to its head. The machine keeps what the peer and the meter saw:
the reads, the requests and the writes.

Reads are any non-empty bytes that fit into the spare memory, and reads and
writes may fail.

Key definitions: `State`, `Step`, `Reachable`.
Key theorem: `Reachable.induction`.
-/
import Statico.Conn.RecvBuf
import Statico.Lib.Decoder

namespace Statico
namespace Conn

/-- What a connection runs with: the decoder of requests, the response, and
whether the traffic is metered. -/
structure Env (ε R : Type) where
  runtime : Runtime
  alloc : Alloc
  decoder : Decoder UInt8 ε R
  response : Bytes
  meter : Bool

/-- Where in the loop a connection is. -/
inductive Phase where
  /-- Before the buffer is prepared for the next read. -/
  | head
  /-- A read is issued. -/
  | reading
  /-- In the loop over the requests in the buffer. -/
  | decoding
  /-- A response is being written. -/
  | writing
  /-- The peer closed the connection. -/
  | closed
  /-- A read or a write failed. -/
  | failed
  deriving DecidableEq

structure State (R : Type) where
  phase : Phase
  recv : RecvBuf
  requestsServed : ℕ
  /-- The reads so far. -/
  received : List Bytes
  /-- The requests decoded so far, with their lengths. -/
  served : List (R × ℕ)
  /-- The arguments of `record_request`. -/
  recordedRequests : List ℕ
  /-- What was written so far. -/
  written : List Bytes
  /-- The arguments of `record_response`. -/
  recordedResponses : List ℕ

section Machine

variable {ε R : Type} (env : Env ε R)

/-- A new connection. -/
def start : State R where
  phase := .head
  recv := RecvBuf.new env.alloc
  requestsServed := 0
  received := []
  served := []
  recordedRequests := []
  written := []
  recordedResponses := []

/-- Adds to the meter, if there is one. -/
def record (n : ℕ) (ns : List ℕ) : List ℕ := if env.meter then ns ++ [n] else ns

variable (s : State R)

def State.to (phase : Phase) : State R := { s with phase := phase }

/-- The head of the loop. -/
def prepare : State R := { s with phase := .reading, recv := s.recv.compact.reserve env.alloc }

/-- A read returns `chunk`. -/
def read (chunk : Bytes) (h : chunk.length ≤ s.recv.buf.spare) : State R :=
  { s with
    phase := .decoding
    recv := s.recv.receive env.runtime chunk h
    received := s.received ++ [chunk] }

/-- A request of `n` bytes is decoded. -/
def request (r : R) (n : ℕ) (h : n ≤ s.recv.unparsed.length) : State R :=
  { s with
    phase := .writing
    recv := s.recv.consume n h
    requestsServed := s.requestsServed + 1
    served := s.served ++ [(r, n)]
    recordedRequests := record env n s.recordedRequests }

/-- The response is written. -/
def respond : State R :=
  { s with
    phase := .decoding
    written := s.written ++ [env.response]
    recordedResponses := record env env.response.length s.recordedResponses }

/-- Writing the response fails after `n` bytes. -/
def respondFailed (n : ℕ) : State R :=
  { s with phase := .failed, written := s.written ++ [env.response.take n] }

/-- One step of a connection. -/
inductive Step : State R → State R → Prop
  | prepare {s : State R} : s.phase = .head → Step s (prepare env s)
  | read {s : State R} {chunk : Bytes} (h : chunk.length ≤ s.recv.buf.spare) : s.phase = .reading →
      chunk ≠ [] → Step s (read env s chunk h)
  | eof {s : State R} : s.phase = .reading → Step s (s.to .closed)
  | readError {s : State R} : s.phase = .reading → Step s (s.to .failed)
  | request {s : State R} {r : R} {n : ℕ} : s.phase = .decoding →
      (h : env.decoder.decode s.recv.unparsed = .ok (r, n)) →
      Step s (request env s r n (env.decoder.progress h).2)
  | incomplete {s : State R} {e : ε} : s.phase = .decoding →
      env.decoder.decode s.recv.unparsed = .error e → Step s (s.to .head)
  | respond {s : State R} : s.phase = .writing → Step s (respond env s)
  | respondFailed {s : State R} (n : ℕ) : s.phase = .writing → Step s (respondFailed env s n)

/-- The states of a connection. -/
def Reachable : State R → Prop := Relation.ReflTransGen (Step env) (start env)

variable {env}

/-- What holds at the start and is kept by every step holds of every state. -/
theorem Reachable.induction {P : State R → Prop} (h0 : P (start env))
    (hstep : ∀ s t, P s → Step env s t → P t) {s : State R} (h : Reachable env s) : P s := by
  induction h with
  | refl => exact h0
  | tail _ hst ih => exact hstep _ _ ih hst

theorem Reachable.step {s t : State R} (h : Reachable env s) (hst : Step env s t) : Reachable env t :=
  h.tail hst

end Machine

end Conn
end Statico
