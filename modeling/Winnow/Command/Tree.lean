import Winnow.Command.Flag

/-!
# Commands

The commands and their flags. The first word that is neither a flag nor the value of one names the
command.
-/

namespace Winnow.Command

inductive Shell where
  | bash
  | fish
  | powershell
  | zsh
  deriving DecidableEq, Repr

def Shell.text : Shell → String
  | bash => "bash"
  | fish => "fish"
  | powershell => "powershell"
  | zsh => "zsh"

/-- The commands. -/
inductive Name where
  | root
  | build
  | analyze
  | init
  | help
  | completion
  | completionFor (shell : Shell)
  deriving DecidableEq, Repr

namespace Name

def text : Name → String
  | root => "treeshaker"
  | build => "build"
  | analyze => "analyze"
  | init => "init"
  | help => "help"
  | completion => "completion"
  | completionFor shell => shell.text

/-- The words that lead to a command. -/
def path : Name → String
  | root => "treeshaker"
  | completionFor shell => s!"treeshaker completion {shell.text}"
  | c => s!"treeshaker {c.text}"

/-- The commands below a command. -/
def children : Name → List Name
  | root => [.analyze, .build, .init, .help, .completion]
  | completion => [.bash, .fish, .powershell, .zsh].map .completionFor
  | _ => []

/-- Whether a command does more than show its help. -/
def isRunnable : Name → Bool
  | root | completion => false
  | _ => true

/-- The flags of all commands. -/
def sharedFlags : List Flag :=
  [{ name := "config", kind := .text, valueName := some "file"
     purpose := "Use specific config file" },
   { name := "no-config", kind := .switch, purpose := "Ignore config files" },
   { name := "log-level", kind := .text
     purpose := "Log level: debug, info, warn, error or silent" },
   { name := "verbose", short := some 'v', kind := .count
     purpose := "Increase log output (-v info, -vv debug)" },
   { name := "quiet", short := some 'q', kind := .switch, purpose := "Only print errors" }]

/-- The flags of commands that build. -/
def buildFlags : List Flag :=
  [{ name := "minify-whitespace", kind := .switch, purpose := "Remove unnecessary whitespace" },
   { name := "no-treeshake", kind := .switch
     purpose := "Keep every statement of every module" },
   { name := "freeze", kind := .switch, initially := some "true"
     purpose := "Wrap namespace objects in Object.freeze" },
   { name := "namespace-to-string-tag", kind := .switch
     purpose := "Add Symbol.toStringTag to namespace objects" },
   { name := "unknown-global-side-effects", kind := .switch, initially := some "true"
     purpose := "Treat reading unknown globals as a side effect" },
   { name := "property-read-side-effects", kind := .switch, initially := some "true"
     purpose := "Treat reading properties of unknown values as a side effect" },
   { name := "max-passes", kind := .integer, purpose := "Maximum number of inclusion passes" },
   { name := "external", kind := .texts
     purpose := "Import specifiers to leave external (can be repeated)" },
   { name := "silence", kind := .texts
     purpose := "Warning codes to suppress (can be repeated)" }]

def ownFlags : Name → List Flag
  | build =>
    { name := "output", short := some 'o', kind := .text, valueName := some "file"
      purpose := "Write output to file (default: stdout)" } :: buildFlags
  | analyze =>
    { name := "format", kind := .text, initially := some "\"human\""
      purpose := "Output format (human, json, yaml)" } :: buildFlags
  | completionFor _ =>
    [{ name := "no-descriptions", kind := .switch, purpose := "disable completion descriptions" }]
  | _ => []

/-- The flags that ask for information. -/
def askingFlags (c : Name) : List Flag :=
  { name := "help", short := some 'h', kind := .switch, purpose := s!"help for {c.text}" } ::
    (if c = .root then
      [{ name := "version", kind := .switch, purpose := s!"version for {c.text}" }]
    else [])

/-- The flags known while a command is looked for. -/
def searchFlags (c : Name) : List Flag := c.ownFlags ++ sharedFlags

def flags (c : Name) : List Flag := c.searchFlags ++ c.askingFlags

/-- Goes down by words that name commands. -/
def descend : (depth : Nat) → Name → List Bytes → Name × List Bytes
  | 0, c, arguments => (c, arguments)
  | n + 1, c, arguments =>
    match wordsOf c.searchFlags arguments with
    | [] => (c, arguments)
    | word :: _ =>
      match c.children.find? fun d => utf8 d.text = word with
      | some d => descend n d (withoutWord c.searchFlags word arguments)
      | none => (c, arguments)

end Name

/-- The next row of a table of distances. -/
def distanceRow (b : UInt8) : (other : Bytes) → (above : List Nat) → (left : Nat) → List Nat
  | c :: other, diagonal :: up :: above, left =>
    let here := if b = c then diagonal else 1 + min (min up left) diagonal
    here :: distanceRow b other (up :: above) here
  | _, _, _ => []

/-- The number of edits between two texts. -/
def distance (s t : Bytes) : Nat :=
  let start := List.range (t.length + 1)
  let last := s.foldl (fun row b =>
    let left := row.headD 0 + 1
    left :: distanceRow b t row left) start
  last.getLastD 0

/-- The commands a word may have meant. -/
def suggestions (c : Name) (word : Bytes) : List String :=
  let isClose (d : Name) : Bool :=
    distance (Text.lower word) (utf8 d.text) ≤ 2 || (utf8 d.text).startsWith (Text.lower word)
  ((c.children.filter (· != .help)).filter isClose).map Name.text

def unknownCommand (c : Name) (word : Bytes) : Bytes :=
  utf8 "unknown command " ++ Text.quoted word ++ utf8 " for " ++ Text.quoted (utf8 c.path)

/-- The command that arguments name, with the rest of them. -/
def find (arguments : List Bytes) : Except Bytes (Name × List Bytes) :=
  let (c, rest) := Name.descend 3 .root arguments
  match c, wordsOf c.searchFlags rest with
  | .root, word :: _ =>
    let meant := suggestions c word
    let advice := if meant.isEmpty then [] else
      utf8 "\n\nDid you mean this?\n" ++ meant.flatMap fun m => utf8 s!"\t{m}\n"
    .error (unknownCommand c word ++ advice)
  | _, _ => .ok (c, rest)

end Winnow.Command
