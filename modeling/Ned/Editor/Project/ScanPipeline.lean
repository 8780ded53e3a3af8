import Mathlib.Logic.Function.Basic

/-!
# The scan pipeline

Files are scanned by workers, and by the calling thread once it has pushed them all. What is done under a
lock is one step. Every other thing that a thread does before it takes a lock is a step of its own.
-/

namespace Ned.Editor.Project

/-- The calling thread is `none`. -/
abbrev Thread (n : Nat) := Option (Fin n)

/-- Where a thread is in `Work` and in `Complete`. -/
inductive Pc (μ : Type) where
  | outside
  | checking
  | waiting
  | scanning (i : Nat)
  | completing
  | collecting
  | sending (run : List μ)
  | exited
  deriving DecidableEq

/-- Where the calling thread is in `Push` and in `Finish`. -/
inductive Phase where
  | pushing
  | pushed
  | closing
  | working
  | returned
  deriving DecidableEq

structure Item (α μ : Type) where
  source : α
  found : List μ := []
  done : Bool := false
  deriving DecidableEq

structure ScanPipeline (n : Nat) (α μ : Type) where
  items : List (Item α μ) := []
  next : Nat := 0
  emitted : Nat := 0
  closed : Bool := false
  emitMutex : Option (Thread n) := none
  phase : Phase := .pushing
  pc : Thread n → Pc μ
  /-- What `onMatches` has been called with. -/
  output : List (List μ) := []
  /-- The items that scans were started of. -/
  scanned : List Nat := []

namespace ScanPipeline

variable {n : Nat} {α μ : Type} (scan : α → List μ) (s : ScanPipeline n α μ) (t : Thread n)

/-- The constructor starts the workers. -/
def start : ScanPipeline n α μ where
  pc t := if t.isSome then .checking else .outside

def goTo (pc : Pc μ) : ScanPipeline n α μ := { s with pc := Function.update s.pc t pc }

/-! ## Push and Finish -/

def push (source : α) : ScanPipeline n α μ :=
  { s with items := s.items ++ [{ source := source }], phase := .pushed }

def close : ScanPipeline n α μ := { s with closed := true, phase := .closing }

/-- Everyone wakes up, and the calling thread starts to work. -/
def notifyAll : ScanPipeline n α μ :=
  { s with
    phase := .working
    pc := fun t =>
      match t with
      | none => .checking
      | some _ =>
          match s.pc t with
          | .waiting => .checking
          | pc => pc }

/-! ## Work -/

/-- The predicate that a thread waits for. -/
def ready : Bool := s.next < s.items.length || s.closed

def take : ScanPipeline n α μ :=
  { s.goTo t (.scanning s.next) with next := s.next + 1, scanned := s.scanned ++ [s.next] }

/-! ## Complete -/

/-- The result of the scan of an item. -/
def finishItem (item : Item α μ) : Item α μ := { item with found := scan item.source, done := true }

def mark (i : Nat) : ScanPipeline n α μ :=
  { s.goTo t .completing with items := s.items.modify i (finishItem scan) }

def lockEmit : ScanPipeline n α μ := { s.goTo t .collecting with emitMutex := some t }

/-- The loop over the items that are done: their matches, what is left of the items, and how many they are. -/
def collectDone : List (Item α μ) → List μ × List (Item α μ) × Nat
  | [] => ([], [], 0)
  | item :: items =>
      if item.done then
        let (run, rest, count) := collectDone items
        (item.found ++ run, { item with found := [] } :: rest, count + 1)
      else ([], item :: items, 0)

def collect : ScanPipeline n α μ :=
  let (run, rest, count) := collectDone (s.items.drop s.emitted)
  { s.goTo t (.sending run) with
    items := s.items.take s.emitted ++ rest
    emitted := s.emitted + count }

/-- An empty run is not sent. -/
def send (run : List μ) : ScanPipeline n α μ :=
  { s.goTo t .checking with
    emitMutex := none
    output := if run.isEmpty then s.output else s.output ++ [run] }

end ScanPipeline

/-- One step of one thread, with no stop requested. -/
inductive ScanPipeline.Step {n : Nat} {α μ : Type} (scan : α → List μ) :
    ScanPipeline n α μ → ScanPipeline n α μ → Prop
  | push {s : ScanPipeline n α μ} (source : α) (phase : s.phase = .pushing) : Step scan s (s.push source)
  | notifyOne {s : ScanPipeline n α μ} (t : Thread n) (phase : s.phase = .pushed) (waits : s.pc t = .waiting) :
      Step scan s { s.goTo t .checking with phase := .pushing }
  | notifyNone {s : ScanPipeline n α μ} (phase : s.phase = .pushed) (awake : ∀ t, s.pc t ≠ .waiting) :
      Step scan s { s with phase := .pushing }
  | close {s : ScanPipeline n α μ} (phase : s.phase = .pushing) : Step scan s s.close
  | notifyAll {s : ScanPipeline n α μ} (phase : s.phase = .closing) : Step scan s s.notifyAll
  | take {s : ScanPipeline n α μ} (t : Thread n) (at_ : s.pc t = .checking) (lt : s.next < s.items.length) :
      Step scan s (s.take t)
  | exit {s : ScanPipeline n α μ} (t : Thread n) (at_ : s.pc t = .checking) (closed : s.closed = true)
      (ended : s.next = s.items.length) : Step scan s (s.goTo t .exited)
  | wait {s : ScanPipeline n α μ} (t : Thread n) (at_ : s.pc t = .checking) (unready : s.ready = false) :
      Step scan s (s.goTo t .waiting)
  /-- A thread may wake up without being notified. -/
  | wake {s : ScanPipeline n α μ} (t : Thread n) (at_ : s.pc t = .waiting) : Step scan s (s.goTo t .checking)
  | mark {s : ScanPipeline n α μ} (t : Thread n) (i : Nat) (at_ : s.pc t = .scanning i) :
      Step scan s (s.mark scan t i)
  | lockEmit {s : ScanPipeline n α μ} (t : Thread n) (at_ : s.pc t = .completing) (free : s.emitMutex = none) :
      Step scan s (s.lockEmit t)
  | collect {s : ScanPipeline n α μ} (t : Thread n) (at_ : s.pc t = .collecting) : Step scan s (s.collect t)
  | send {s : ScanPipeline n α μ} (t : Thread n) (run : List μ) (at_ : s.pc t = .sending run) :
      Step scan s (s.send t run)
  | join {s : ScanPipeline n α μ} (phase : s.phase = .working) (all : ∀ t, s.pc t = .exited) :
      Step scan s { s with phase := .returned }

end Ned.Editor.Project
