import JobConsole.Console.Journal
import JobConsole.Display
import JobConsole.Input.LineReader
import JobConsole.Mailbox
import JobConsole.Settings
import JobConsole.Signal

namespace JobConsole

inductive Wait
  | fresh
  | room (message : Message)
  | reply (number : Nat)
  | replied (line : String)
  | hungUp
  | termination
  | alarm (deadline : Nat)
  | forever
  deriving DecidableEq

def Wait.isReply (n : Nat) : Wait → Bool
  | .reply m => m = n
  | _ => false

structure Activity where
  program : Program
  /-- The position of the current statement in the whole program. -/
  index : Nat := 0
  wait : Wait := .fresh
  deriving DecidableEq

inductive Printer
  | receiving
  | reading (slot : ReplySlot)
  | leaving
  | stopped
  /-- A text could not be laid out. -/
  | crashed
  deriving DecidableEq, Repr

def Printer.isReceiving : Printer → Bool
  | .receiving => true
  | _ => false

inductive SignalWatch
  | absent
  | registering
  /-- The signals raised and not yet seen, each once. -/
  | listening (pending : List Signal)
  deriving DecidableEq, Repr

inductive Ticker
  | absent
  | checking
  | calling (request : Option Request) (activity : Activity)
  | sleeping (deadline : Nat)
  deriving DecidableEq

def Ticker.isAlive : Ticker → Bool
  | .absent => false
  | _ => true

def Ticker.activity? : Ticker → Option Activity
  | .calling _ a => some a
  | _ => none

def Ticker.setActivity (a : Activity) : Ticker → Ticker
  | .calling request _ => .calling request a
  | t => t

structure Supervision where
  job : Nat
  tally : Tally := {}
  deriving DecidableEq, Repr

structure Timer where
  deadline : Nat
  task : TaskId
  deriving DecidableEq, Repr

structure Console where
  settings : Settings
  jobs : List Job
  mailbox : Mailbox TaskId
  display : Display := {}
  reader : LineReader TaskId := {}
  /-- The time in milliseconds. -/
  now : Nat := 0
  /-- The tasks that can run, in the order in which they will. -/
  ready : List TaskId := [.printer]
  /-- By deadline, and among equal deadlines in the order in which they were set. -/
  timers : List Timer := []
  slots : Nat := 0
  terminated : Bool := false
  /-- Who waits for termination, in the order in which they began to. -/
  parked : List TaskId := []
  request : Option Request := none
  supervision : Option Supervision := none
  printer : Printer := .receiving
  signalWatch : SignalWatch := .absent
  /-- Why registering for signals fails, if it does. -/
  signalFault : Option String := none
  keywordWatch : Bool := false
  ticker : Ticker := .absent
  /-- The activity of each producer, `none` once it has ended. -/
  producers : List (Option Activity) := []
  hosted : Bool := true
  /-- What happened, the latest first. -/
  journal : List Entry := []

namespace Console

def new? (settings : Settings) (jobs : List Job) (source : Source) (sink : Sink) :
    Option Console :=
  (Mailbox.empty? TaskId settings.capacity).map fun mailbox =>
    { settings, jobs, mailbox, display := { sink }, reader := { source } }

def record (c : Console) (e : Event) : Console :=
  { c with journal := ⟨c.now, e⟩ :: c.journal }

def log (c : Console) (d : Diagnostic) : Console :=
  c.record (.logged d)

/-- Puts a task behind those that can run already; one of these keeps its place. -/
def enlist (ready : List TaskId) (id : TaskId) : List TaskId :=
  if id ∈ ready then ready else ready ++ [id]

theorem mem_enlist {ready : List TaskId} {i j : TaskId} :
    i ∈ enlist ready j ↔ i ∈ ready ∨ i = j := by
  unfold enlist
  split
  · rename_i h
    exact ⟨.inl, fun h' => h'.elim id (· ▸ h)⟩
  · simp

theorem nodup_enlist {ready : List TaskId} (i : TaskId) (h : ready.Nodup) :
    (enlist ready i).Nodup := by
  unfold enlist
  split
  · exact h
  · rename_i hn
    refine List.nodup_append.2 ⟨h, by simp, fun a ha b hb e => hn ?_⟩
    rw [List.mem_singleton] at hb
    exact hb ▸ e ▸ ha

def wake (c : Console) (id : TaskId) : Console :=
  { c with ready := enlist c.ready id }

def wakeAll (c : Console) (ids : List TaskId) : Console :=
  { c with ready := ids.foldl enlist c.ready }

/-- The printer is woken for messages only while it waits for them. -/
def wakeReceiver (c : Console) : Console :=
  { c with ready := if c.printer.isReceiving then enlist c.ready .printer else c.ready }

def intervalMilliseconds (c : Console) : Nat :=
  c.settings.interval.ceilMilliseconds

def job (c : Console) (k : Nat) : Job :=
  c.jobs[k]?.getD .idle

def isReporting (c : Console) : Bool :=
  c.supervision.isSome

def isHeld (c : Console) : Bool :=
  c.hosted || c.producers.any Option.isSome || c.keywordWatch || c.ticker.isAlive

def letGo (c : Console) : Console :=
  { c with ready := if c.isHeld then c.ready else c.wakeReceiver.ready }

/-- Sets a timer behind those that are due no later. -/
def setTimer (c : Console) (t : Timer) : Console :=
  { c with
    timers := c.timers.takeWhile (·.deadline ≤ t.deadline) ++
      t :: c.timers.dropWhile (·.deadline ≤ t.deadline) }

def activity? (c : Console) : TaskId → Option Activity
  | .producer n => (c.producers[n]?).join
  | .ticker => c.ticker.activity?
  | _ => none

def setActivity (c : Console) (id : TaskId) (a : Activity) : Console :=
  match id with
  | .producer n => { c with producers := c.producers.set n (some a) }
  | .ticker => { c with ticker := c.ticker.setActivity a }
  | _ => c

def setWait (c : Console) (id : TaskId) (w : Wait) : Console :=
  match c.activity? id with
  | some a => c.setActivity id { a with wait := w }
  | none => c

/-- Puts a request to cancel in place; a second one is dropped. -/
def offer (c : Console) (r : Request) : Console :=
  { c with request := c.request.or (some r) }

def withdraw (c : Console) (id : TaskId) : Console :=
  wakeAll { c with
    mailbox := (c.mailbox.leave id).1
    parked := c.parked.erase id
    timers := c.timers.filter (·.task ≠ id)
    ready := c.ready.erase id } (c.mailbox.leave id).2.toList

end Console

end JobConsole
