import Winnow.Command.Help
import Winnow.Command.Session
import Winnow.Report.Write

/-!
# Runs

A run of the tool as a function: from the outside world and the arguments to what is printed, the
files that are written, and the exit status.
-/

namespace Winnow.Command

/-- What a run prints and writes, and its exit status. -/
structure Outcome where
  output : Bytes := []
  errors : Bytes := []
  exit : Nat := 0
  written : List (Bytes × Bytes) := []
  deriving DecidableEq, Repr

def Outcome.fail (o : Outcome) (message : Bytes) : Outcome :=
  { o with errors := o.errors ++ utf8 "error: " ++ message ++ [10], exit := 1 }

/-- Ends a run that cannot go on. -/
def Outcome.crash (o : Outcome) (message : Bytes) : Outcome :=
  { o with errors := o.errors ++ utf8 "panic: " ++ message ++ [10], exit := 2 }

def version : Bytes := utf8 "treeshaker v0.1.0 (dev)\n"

/-- The compressed size, which is not computed. -/
def gzipSize : Nat := 0

def isQuiet (a : Arguments) : Bool := (a.switch? "quiet").getD false

/-- The diagnostics that are shown. -/
def diagnosticText (a : Arguments) (ds : Diagnostics) : Bytes :=
  (if isQuiet a then ds.errors else ds.entries).flatMap ds.formatOne

/-- A build with the lines of its log. -/
def Session.build (s : Session) (w : World) :
    Except BuildFailure BuildResult × Graph × Bytes :=
  let (result, g) := Winnow.build (w.disk.below w.directory) s.entries s.options
  let lines := s.configLine ++ buildLog s.level w.buildId g
  (result, g, lines.flatMap (w.stamp ++ ·))

/-- How a run ends when its build fails. -/
def Session.failed (s : Session) (o : Outcome) : BuildFailure → Outcome
  | .link e => o.fail (e.wording s.entries)
  | .unsettled passes => o.crash (Marking.unsettledMessage passes)
  | .layout fault => o.crash fault.message
  | .halted .exhausted => o.crash (utf8 "analysis too deep")

/-- What is said about a bundle written to a file. -/
def bundledLine (s : BuildStats) : Bytes :=
  utf8 "Bundled " ++ Bytes.ofNat s.modules ++ utf8 " modules: " ++ Bytes.ofNat s.inputSize ++
    utf8 " -> " ++ Bytes.ofNat s.outputSize ++ utf8 " bytes (" ++ Bytes.ofNat gzipSize ++
    utf8 " gzipped), kept " ++ Bytes.ofNat s.marking.included ++ utf8 " of " ++
    Bytes.ofNat s.marking.statements ++ utf8 " statements\n"

def runBuild (w : World) (a : Arguments) : Outcome :=
  match Session.start w a with
  | .error e => Outcome.fail {} e.message
  | .ok s =>
    let (result, g, log) := s.build w
    let o : Outcome := { errors := log ++ diagnosticText a g.diagnostics }
    match result, (a.text? "output").getD [] with
    | .error failure, _ => s.failed o failure
    | .ok r, [] => { o with output := r.code }
    | .ok r, path =>
      match w.disk.writable w.directory path with
      | .error e => o.fail (utf8 "creating output file: " ++ e.message)
      | .ok p =>
        { o with
          errors := o.errors ++ (if isQuiet a then [] else bundledLine r.stats)
          written := [(p, r.code)] }

def runAnalyze (w : World) (a : Arguments) : Outcome :=
  let name := (a.text? "format").getD (utf8 ReportFormat.human.text)
  match ReportFormat.ofText? name, Session.start w a with
  | none, _ => Outcome.fail {} (ReportFormat.unsupported name)
  | some _, .error e => Outcome.fail {} e.message
  | some f, .ok s =>
    let (result, g, log) := s.build w
    match result with
    | .error failure => s.failed { errors := log ++ diagnosticText a g.diagnostics } failure
    | .ok r =>
      match (Report.ofBuild s.options.depth w.buildId gzipSize r.stats).run g with
      | .error halt => s.failed { errors := log } (.halted halt)
      | .ok (report, _) => { output := report.write f, errors := log }

/-- Writes the standard configuration to a new file. -/
def runInit (w : World) (a : Arguments) : Outcome :=
  let path := a.rest.headD (utf8 "treeshaker.toml")
  let parent := Specifier.directory path
  if a.rest.length > 1 then
    Outcome.fail {} (utf8 "accepts at most 1 arg(s), received " ++ Bytes.ofNat a.rest.length)
  else if w.disk.contains w.directory path then
    Outcome.fail {} (utf8 "config " ++ path ++ utf8 " already exists")
  else
    let made :=
      if parent = utf8 "." then .ok w.disk
      else w.disk.makeDirectories w.directory [] (Bytes.splitOn 47 parent)
    match made with
    | .error e => Outcome.fail {} (utf8 "failed to create directory: " ++ e.message)
    | .ok disk =>
      match disk.writable w.directory path with
      | .error e => Outcome.fail {} e.message
      | .ok p =>
        { output := utf8 "Wrote " ++ path ++ [10]
          written := [(p, Toml.write Config.standard.settled)] }

def runHelp (words : List Bytes) : Outcome :=
  match find words with
  | .ok (c, _) => { output := helpText c }
  | .error _ => { errors := unknownTopic words ++ rootUsage }

def runCompletion (shell : Shell) (a : Arguments) : Outcome :=
  match a.rest with
  | word :: _ => Outcome.fail {} (unknownCommand (.completionFor shell) word)
  | [] => Outcome.fail {} (utf8 s!"no completion script for {shell.text}")

def runCommand (w : World) (c : Name) (a : Arguments) : Outcome :=
  match c with
  | .build => runBuild w a
  | .analyze => runAnalyze w a
  | .init => runInit w a
  | .help => runHelp a.rest
  | .completionFor shell => runCompletion shell a
  | .root | .completion => { output := helpText c }

/-- A whole run of the tool. -/
def run (w : World) (arguments : List Bytes) : Outcome :=
  match find arguments with
  | .error message => Outcome.fail {} message
  | .ok (c, rest) =>
    match Arguments.ofList c.flags rest with
    | .error fault => Outcome.fail {} fault.message
    | .ok a =>
      if (a.switch? "help").getD false then { output := helpText c }
      else if (a.switch? "version").getD false then { output := version }
      else runCommand w c a

end Winnow.Command
