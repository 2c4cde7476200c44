import JobConsole.Console.Activity
import JobConsole.Console.Printing

namespace JobConsole.Console

def beginCall (c : Console) (s : Supervision) : Console :=
  let request := c.request
  let tally := s.tally.next request
  let job := c.job s.job
  let c := { c with
    request := none
    supervision := some { s with tally }
    ticker := .calling request { program := job.call tally request } }
  let c := match request with
    | none => c
    | some r => c.log (.cancelling job.name r)
  c.record (.call s.job request (tally.number request) .began)

/-- Sleeps until the next call, counted from the end of this one. -/
def pause (c : Console) : Console :=
  let deadline := c.now + c.intervalMilliseconds
  setTimer { c with ticker := .sleeping deadline } ⟨deadline, .ticker⟩

/-- A request that a crashing call has not served is put back. -/
def recover (c : Console) (s : Supervision) (request : Option Request) : Console :=
  let c := c.log (.callCrashed (c.job s.job).name request.isSome)
  match request with
  | none => c
  | some r => c.offer r

def continueCall (c : Console) (s : Supervision) (request : Option Request) (a : Activity) :
    Console × Bool :=
  let note := Event.call s.job request (s.tally.number request)
  match c.pursue .ticker a (note ∘ .finished) with
  | (c, .resting) => (c, false)
  | (c, .moving) => (c, true)
  | (c, .ended) => ((c.record (note .ended)).pause, true)
  | (c, .crashed) => (((c.record (note .crashed)).recover s request).pause, true)

def stopTicker (c : Console) (s : Supervision) : Console :=
  (log { c.withdraw .ticker with ticker := .absent } (.stopped (c.job s.job).name)).letGo

/-- Termination comes before everything else that the ticker could do. -/
def tickerTurn (c : Console) : Console × Bool :=
  match c.supervision, c.ticker with
  | none, _ | _, .absent => (c, false)
  | some s, ticker =>
    if c.terminated then (c.stopTicker s, false)
    else match ticker with
      | .absent => (c, false)
      | .checking => (c.beginCall s, true)
      | .calling request a => c.continueCall s request a
      | .sleeping deadline =>
        if deadline ≤ c.now then ({ c with ticker := .checking }, true) else (c, false)

def endKeywordWatch (c : Console) : Console :=
  let d := c.reader.abandon .keywordWatch
  (wakeAll { c with reader := d.1, keywordWatch := false } d.2.toList).letGo

def keywordWatchTurn (c : Console) : Console × Bool :=
  if !c.keywordWatch then (c, false)
  else if c.terminated then (c.endKeywordWatch, false)
  else match c.readLine .keywordWatch with
    | (c, none) => (c, false)
    | (c, some (.ok line)) =>
      if c.settings.isCancelKeyword line then
        (((c.log .keywordReceived).offer .keyword).endKeywordWatch, false)
      else (c, true)
    | (c, some (.error failure)) =>
      let c := (c.log (.watchFailed failure)).record (.ending .keywordWatch (.abort failure))
      (c.endKeywordWatch, false)

/-- The signal watch registers first; signals raised before that are not seen. -/
def signalWatchTurn (c : Console) : Console × Bool :=
  match c.signalWatch with
  | .absent => (c, false)
  | .registering =>
    match c.signalFault with
    | none => ({ c with signalWatch := .listening [] }, true)
    | some cause =>
      (log { c with signalWatch := .absent } (.signalsDisabled (.signalRegistration cause)), false)
  | .listening pending =>
    if c.terminated then ({ c with signalWatch := .absent }, false)
    else match pending with
      | [] => (c, false)
      | _ :: rest =>
        ((log { c with signalWatch := .listening rest } .signalReceived).offer .signal, true)

end JobConsole.Console
