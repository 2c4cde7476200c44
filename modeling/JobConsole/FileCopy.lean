import JobConsole.Job
import JobConsole.Settings

namespace JobConsole.FileCopy

/-- The percentage that the next report starts from, after `reports` reports. It counts on past
one hundred and wraps at 32 bits. -/
def percentAfter (start : UInt32) (reports : Nat) : UInt32 :=
  start + 7 * UInt32.ofNat reports

def shown (percent : UInt32) : Nat :=
  min percent.toNat 100

def report (percent : Nat) (files : UInt32) : Program :=
  if 100 ≤ percent then [.exit s!"All done: {files} files copied" ⟨0⟩]
  else
    (if 0 < percent && percent % 21 = 0 then [.info s!"checkpoint at {percent}%"] else []) ++
      [.progress s!"Copying {percent}% of {files} files"]

def cancel (percent : UInt32) : Program :=
  [.info s!"stopping at {percent}%", .exit "Copy cancelled" ⟨1⟩]

def job (start files : UInt32) : Job where
  name := "copy-job"
  report t := report (shown (percentAfter start (t.reports - 1))) files
  cancel t := cancel (percentAfter start t.reports)
  listed := false

/-- Asks for leave, starts the copy and waits for the end. The second start has no effect. -/
def session (interactive : Bool) : Program :=
  [.info "=== copy_job example ===",
   .confirm "Start copy? [y/n] " "Nothing copied" ⟨0⟩,
   .start 0 interactive,
   .start 0 interactive,
   .park]

def sessionJob : Job := job 0 1284

def settings : Settings :=
  { reportInterval := .ofMilliseconds 500 }

end JobConsole.FileCopy
