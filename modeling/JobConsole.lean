import JobConsole.Settings
import JobConsole.Display
import JobConsole.Input.OpenReads
import JobConsole.FileCopy
import JobConsole.Diagnostic.Filter
import JobConsole.Script
import JobConsole.Session
import JobConsole.Main
import JobConsole.Proofs.Chronicle
import JobConsole.Proofs.Requests
import JobConsole.Proofs.Aftermath
import JobConsole.Proofs.Answers
import JobConsole.Proofs.Endings
import JobConsole.Proofs.Speech
import JobConsole.Proofs.Slots
import JobConsole.Proofs.Crew
import JobConsole.Proofs.Serving
import JobConsole.Proofs.Sharing
import JobConsole.Proofs.Conversation
import JobConsole.Proofs.Course
import JobConsole.Proofs.Parallel
import JobConsole.Proofs.Removal
import JobConsole.Proofs.Grammar
import JobConsole.Proofs.Succession
import JobConsole.Proofs.Indifference
import JobConsole.Proofs.Cadence
import JobConsole.Proofs.Custody
import JobConsole.Proofs.Losses
import JobConsole.Proofs.Picture
import JobConsole.Proofs.Residue
import JobConsole.Proofs.Truncation
import JobConsole.Proofs.Spacing
import JobConsole.Proofs.Deafness
import JobConsole.Proofs.Backpressure
import JobConsole.Proofs.Clearing
import JobConsole.Proofs.Mending
import JobConsole.Proofs.Keyword
import JobConsole.Proofs.Ticks
import JobConsole.Proofs.Ceiling
import JobConsole.Proofs.ShownEvents
import JobConsole.Proofs.CopyShown
import JobConsole.Proofs.CopyCompletion
