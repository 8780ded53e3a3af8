import Mathlib.Logic.Function.Basic
import Ned.Text.Bytes

/-!
# Relaying a remote process

The output of a process on a host, held in queues until the child's reader has taken it, and the credit that goes
back to the host for each chunk. What a section does under the relay's mutex is one step, together with the
notification that follows it. What goes up to the child's stdin is left out.
-/

namespace Ned.Editor.Remote.Proc

open Text

/-- The streams that output comes from. -/
inductive Fd where
  | stdout
  | stderr
  deriving DecidableEq

inductive StderrMode where
  | capture
  | mergeWithStdout
  | discard
  deriving DecidableEq

structure Relay where
  out : Fd → List Bytes := fun _ => []
  /-- How much of each front is handed on already. -/
  sent : Fd → Nat := fun _ => 0
  finished : Bool := false
  released : Bool := false
  discarding : Bool := false

namespace Relay

/-- The chunks in both queues. -/
def queued (relay : Relay) : Nat := (relay.out .stdout).length + (relay.out .stderr).length

def push (relay : Relay) (fd : Fd) (data : Bytes) : Relay :=
  { relay with out := Function.update relay.out fd (relay.out fd ++ [data]) }

/-- Nothing is kept of what waits for a reader that is gone. -/
def discard (relay : Relay) : Relay :=
  { relay with discarding := true, out := fun _ => [], sent := fun _ => 0 }

def release (relay : Relay) : Relay := { relay with released := true, out := fun _ => [] }

end Relay

/-! ## Deliver -/

/-- What `send` comes to: how much the socket took, that it takes nothing now, that a signal came, or that the
reader is gone. -/
inductive SendResult where
  | took (size : Nat)
  | again
  | interrupted
  | failed
  deriving DecidableEq

/-- What `Deliver` has done so far. -/
structure Delivery where
  relay : Relay
  delivered : Nat := 0
  bytes : Bytes := []

/-- A socket takes some of what is left of the front. -/
def Delivery.take (delivery : Delivery) (fd : Fd) (size : Nat) (front : Bytes) (rest : List Bytes) : Delivery :=
  let relay := delivery.relay
  let sent := min (relay.sent fd + size) front.length
  let bytes := delivery.bytes ++ (front.take sent).drop (relay.sent fd)
  if sent = front.length then
    { relay := { relay with out := Function.update relay.out fd rest, sent := Function.update relay.sent fd 0 },
      delivered := delivery.delivered + 1, bytes := bytes }
  else
    { delivery with relay := { relay with sent := Function.update relay.sent fd sent }, bytes := bytes }

/-- The loop of `Deliver`, by what its calls of `send` come to. Where these end the socket takes nothing more. -/
def deliver (fd : Fd) : List SendResult → Delivery → Delivery
  | [], delivery => delivery
  | result :: results, delivery =>
      match delivery.relay.out fd with
      | [] => delivery
      | front :: rest =>
          match result with
          | .took size => deliver fd results (delivery.take fd size front rest)
          | .again => delivery
          | .interrupted => deliver fd results delivery
          | .failed =>
              { delivery with
                relay := delivery.relay.discard, delivered := delivery.delivered + delivery.relay.queued }

/-! ## The threads -/

/-- Where the relay thread is: before its checks, in `poll` for what it wants to write, about to call `Deliver` for
some streams with what the calls before returned, or at its end. -/
inductive RelayPc where
  | looping
  | polling (wantOutput wantError : Bool)
  | delivering (streams : List Fd) (delivered : Nat)
  | exited
  deriving DecidableEq

/-- Where the main thread is: in its loop, in `onChunk` after it refused a chunk, or in `onError` before `Finish`. -/
inductive MainPc where
  | idle
  | refusing
  | failing
  deriving DecidableEq

/-- Where `Release` is: not called, waiting for the relay thread with the chunks it held, or through. -/
inductive OwnerPc where
  | before
  | holding (held : Nat)
  | through
  deriving DecidableEq

structure State where
  relay : Relay := {}
  /-- The relay thread has been notified since it last drained `wakeFd`. -/
  wake : Bool := false
  thread : RelayPc := .looping
  main : MainPc := .idle
  owner : OwnerPc := .before
  /-- The grants that are posted to the main thread. -/
  posted : List Nat := []
  granted : Nat := 0
  /-- The output chunks that came, malformed ones too. -/
  received : Nat := 0
  answered : Bool := false
  /-- The chunks of each stream in the order in which they came. -/
  chunks : Fd → List Bytes := fun _ => []
  /-- What has been sent to the child's reader. -/
  relayed : Fd → Bytes := fun _ => []

namespace State

variable (mode : StderrMode) (s : State)

/-- A chunk of well-formed output comes. -/
def receive (fd : Fd) (data : Bytes) : State :=
  { s with received := s.received + 1, chunks := Function.update s.chunks fd (s.chunks fd ++ [data]) }

def wanted (fd : Fd) : Bool := fd == .stdout || mode == .capture

def accepts (fd : Fd) : Bool := !s.relay.released && !s.relay.discarding && wanted mode fd

/-- The section of `onChunk`. -/
def onChunk (fd : Fd) (data : Bytes) : State :=
  if s.accepts mode fd then { s.receive fd data with relay := s.relay.push fd data, wake := true }
  else { s.receive fd data with main := .refusing }

def grant (chunks : Nat) : State := { s with granted := s.granted + chunks }

/-- Where the text of a failed spawn goes. -/
def failureFd : Option Fd :=
  match mode with
  | .capture => some .stderr
  | .mergeWithStdout => some .stdout
  | .discard => none

/-- The first section of `onError`. The text counts as a chunk of its stream. -/
def onSpawnFailed (message : Bytes) : State :=
  let s := { s with answered := true, main := .failing }
  match failureFd mode with
  | none => s
  | some fd =>
      { s with
        relay := s.relay.push fd (message ++ [newline])
        chunks := Function.update s.chunks fd (s.chunks fd ++ [message ++ [newline]]) }

def finish : State :=
  { s with relay := { s.relay with finished := true }, wake := true, answered := true, main := .idle }

/-- The checks at the top of the relay thread's loop. -/
def check : State :=
  if s.relay.released then { s with thread := .exited }
  else if s.relay.finished && s.relay.queued == 0 then { s with thread := .exited }
  else { s with thread := .polling (!(s.relay.out .stdout).isEmpty) (!(s.relay.out .stderr).isEmpty) }

/-- `poll` has returned, and `wakeFd` is drained. -/
def polled (streams : List Fd) : State := { s with thread := .delivering streams 0, wake := false }

def deliverTo (fd : Fd) (results : List SendResult) (streams : List Fd) (delivered : Nat) : State :=
  let delivery := deliver fd results { relay := s.relay }
  { s with
    relay := delivery.relay
    thread := .delivering streams (delivered + delivery.delivered)
    relayed := Function.update s.relayed fd (s.relayed fd ++ delivery.bytes) }

/-- A grant of nothing is not posted. -/
def post (delivered : Nat) : State :=
  { s with thread := .looping, posted := if delivered = 0 then s.posted else s.posted ++ [delivered] }

/-- The section of `Release`. -/
def release : State :=
  { s with relay := s.relay.release, wake := true, owner := .holding s.relay.queued }

/-- The relay thread has ended. -/
def joined (held : Nat) : State := { s with owner := .through, posted := s.posted ++ [held] }

end State

/-- The streams that `Deliver` is called for, in the order of the calls. -/
def ready (wantOutput wantError output error : Bool) : List Fd :=
  (if wantOutput && output then [.stdout] else []) ++ if wantError && error then [.stderr] else []

/-- What the threads do with what has come, while the connection lasts. -/
inductive Work : State → State → Prop
  | refuse {s : State} (main : s.main = .refusing) : Work s ({ s with main := .idle }.grant 1)
  | runPosted {s : State} (chunks : Nat) (rest : List Nat) (main : s.main = .idle)
      (posted : s.posted = chunks :: rest) : Work s ({ s with posted := rest }.grant chunks)
  | finish {s : State} (main : s.main = .failing) : Work s s.finish
  | check {s : State} (thread : s.thread = .looping) : Work s s.check
  | polled {s : State} (wantOutput wantError output error : Bool) (thread : s.thread = .polling wantOutput wantError)
      (event : s.wake || wantOutput && output || wantError && error) :
      Work s (s.polled (ready wantOutput wantError output error))
  | deliver {s : State} (fd : Fd) (streams : List Fd) (delivered : Nat) (results : List SendResult)
      (thread : s.thread = .delivering (fd :: streams) delivered) : Work s (s.deliverTo fd results streams delivered)
  | post {s : State} (delivered : Nat) (thread : s.thread = .delivering [] delivered) : Work s (s.post delivered)
  | join {s : State} (held : Nat) (owner : s.owner = .holding held) (thread : s.thread = .exited) :
      Work s (s.joined held)

/-- One step of one thread, or of what comes from outside. -/
inductive Step (mode : StderrMode) : State → State → Prop
  | work {s s' : State} (work : Work s s') : Step mode s s'
  | chunk {s : State} (fd : Fd) (data : Bytes) (main : s.main = .idle) (open_ : s.answered = false) :
      Step mode s (s.onChunk mode fd data)
  | malformed {s : State} (main : s.main = .idle) (open_ : s.answered = false) :
      Step mode s ({ s with received := s.received + 1 }.grant 1)
  /-- The process has ended, or an error other than a failed spawn came. -/
  | answer {s : State} (main : s.main = .idle) (open_ : s.answered = false) : Step mode s s.finish
  /-- The host answers so before there is a process. -/
  | spawnFailed {s : State} (message : Bytes) (main : s.main = .idle) (open_ : s.answered = false)
      (none : s.received = 0) : Step mode s (s.onSpawnFailed mode message)
  /-- `poll` has returned for what the child wrote. -/
  | input {s : State} (wantOutput wantError output error : Bool) (thread : s.thread = .polling wantOutput wantError) :
      Step mode s (s.polled (ready wantOutput wantError output error))
  | pollInterrupted {s : State} (wantOutput wantError : Bool) (thread : s.thread = .polling wantOutput wantError) :
      Step mode s { s with thread := .looping }
  | pollFailed {s : State} (wantOutput wantError : Bool) (thread : s.thread = .polling wantOutput wantError) :
      Step mode s { s with thread := .exited }
  | release {s : State} (owner : s.owner = .before) : Step mode s s.release

end Ned.Editor.Remote.Proc
