namespace JobConsole

/-- The printer owns the terminal, the watches listen for requests to cancel, the ticker calls the
job, and producers are the tasks of those who use the console. -/
inductive TaskId
  | printer
  | signalWatch
  | keywordWatch
  | ticker
  | producer (number : Nat)
  deriving DecidableEq, Repr

end JobConsole
