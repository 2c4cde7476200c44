import JobConsole.Diagnostic

/-!
Filters: which diagnostics are worth a log line. A filter is a list of directives, of which the one
with the longest target that a diagnostic's path starts with decides.
-/

namespace JobConsole.Diagnostic

abbrev Paths := Origin → String

structure Directive where
  /-- What a path must start with; empty for all paths. -/
  target : String
  /-- The least severe level that is enabled, `none` if there is none. -/
  threshold : Option Level
  deriving DecidableEq, Repr

structure Filter where
  directives : List Directive
  deriving DecidableEq, Repr

namespace Directive

def forAll (threshold : Option Level) : Directive := ⟨"", threshold⟩

def level? (word : String) : Option (Option Level) :=
  match String.ofList (word.toList.map Char.toLower) with
  | "off" | "0" => some none
  | "error" | "1" => some (some .error)
  | "warn" | "2" => some (some .warn)
  | "info" | "3" => some (some .info)
  | "debug" | "4" => some (some .debug)
  | "trace" | "5" => some (some .trace)
  | _ => none

def isTargetChar (c : Char) : Bool :=
  c.isAlphanum || c = '_' || c = ':' || c = '-'

def target? (s : String) : Option String :=
  if s ≠ "" && s.toList.all isTargetChar then some s else none

/-- A level, a target, or both joined by an equals sign. A target without a level enables all. -/
def parse? (s : String) : Option Directive :=
  match s.splitOn "=" with
  | [word] =>
    match level? word with
    | some threshold => some (forAll threshold)
    | none => (target? word).map (⟨·, some .trace⟩)
  | [target, ""] => (target? target).map (⟨·, some .trace⟩)
  | [target, word] => do some ⟨← target? target, ← level? word⟩
  | _ => none

def covers (d : Directive) (path : String) : Bool :=
  d.target.toList.isPrefixOf path.toList

def enables (d : Directive) (level : Level) : Bool :=
  match d.threshold with
  | none => false
  | some t => level.rank ≤ t.rank

end Directive

namespace Filter

/-- Directives separated by commas. Where there are none, nothing is enabled. -/
def parse? (s : String) : Option Filter :=
  (((s.splitOn ",").filter (· ≠ "")).mapM Directive.parse?).map Filter.mk

def ofSetting (setting : Option String) : Filter :=
  (setting.bind parse?).getD ⟨[.forAll (some .warn)]⟩

/-- The directive that decides for a path; of two for the same target the later one. -/
def decisive? (f : Filter) (path : String) : Option Directive :=
  (f.directives.filter (·.covers path)).foldl (fun best d =>
    match best with
    | some b => if d.target.length < b.target.length then some b else some d
    | none => some d) none

def enables (f : Filter) (paths : Paths) (d : Diagnostic) : Bool :=
  match f.decisive? (paths d.origin) with
  | none => false
  | some directive => directive.enables d.level

end Filter

end JobConsole.Diagnostic
