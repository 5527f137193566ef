import Winnow.Command.Tree

/-!
# Help texts

What each command is for, and how it is used.
-/

namespace Winnow.Command

namespace Name

/-- What a command is for, in one line. -/
def summary : Name → String
  | root => "treeshaker - ES module tree-shaker"
  | build => "Bundle entry modules and remove unused code"
  | analyze => "Report what a build keeps and drops"
  | init => "Write a default treeshaker.toml"
  | help => "Help about any command"
  | completion => "Generate the autocompletion script for the specified shell"
  | completionFor shell => s!"Generate the autocompletion script for {shell.text}"

def ofLines (lines : List String) : String := "\n".intercalate lines

/-- How a script for a shell is used. -/
def completionText : Shell → String
  | .bash => ofLines [
      "Generate the autocompletion script for the bash shell.",
      "",
      "This script depends on the 'bash-completion' package.",
      "If it is not installed already, you can install it via your OS's package manager.",
      "",
      "To load completions in your current shell session:",
      "",
      "\tsource <(treeshaker completion bash)",
      "",
      "To load completions for every new session, execute once:",
      "",
      "#### Linux:",
      "",
      "\ttreeshaker completion bash > /etc/bash_completion.d/treeshaker",
      "",
      "#### macOS:",
      "",
      "\ttreeshaker completion bash > $(brew --prefix)/etc/bash_completion.d/treeshaker",
      "",
      "You will need to start a new shell for this setup to take effect."]
  | .zsh => ofLines [
      "Generate the autocompletion script for the zsh shell.",
      "",
      "If shell completion is not already enabled in your environment you will need",
      "to enable it.  You can execute the following once:",
      "",
      "\techo \"autoload -U compinit; compinit\" >> ~/.zshrc",
      "",
      "To load completions in your current shell session:",
      "",
      "\tsource <(treeshaker completion zsh)",
      "",
      "To load completions for every new session, execute once:",
      "",
      "#### Linux:",
      "",
      "\ttreeshaker completion zsh > \"$\x7bfpath[1]\x7d/_treeshaker\"",
      "",
      "#### macOS:",
      "",
      "\ttreeshaker completion zsh > $(brew --prefix)/share/zsh/site-functions/_treeshaker",
      "",
      "You will need to start a new shell for this setup to take effect."]
  | .fish => ofLines [
      "Generate the autocompletion script for the fish shell.",
      "",
      "To load completions in your current shell session:",
      "",
      "\ttreeshaker completion fish | source",
      "",
      "To load completions for every new session, execute once:",
      "",
      "\ttreeshaker completion fish > ~/.config/fish/completions/treeshaker.fish",
      "",
      "You will need to start a new shell for this setup to take effect."]
  | .powershell => ofLines [
      "Generate the autocompletion script for powershell.",
      "",
      "To load completions in your current shell session:",
      "",
      "\ttreeshaker completion powershell | Out-String | Invoke-Expression",
      "",
      "To load completions for every new session, add the output of the above command",
      "to your powershell profile."]

/-- What a command is for, at length. -/
def description : Name → String
  | root => ofLines [
      "treeshaker links ES modules into a single module and removes statements",
      "whose results are never used and that have no side effects."]
  | build => ofLines [
      "Bundle the given entry modules into a single ES module. Without",
      "arguments the config file's input list is used.",
      "",
      "Examples:",
      "  treeshaker build src/index.js",
      "  treeshaker build src/index.js -o dist/bundle.js",
      "  treeshaker build src/index.js --external react --minify-whitespace",
      "  treeshaker build src/index.js --no-treeshake"]
  | analyze => ofLines [
      "Run a build and print, for every module, the statements and top-level",
      "bindings that were kept or dropped and the conditionals whose branch was",
      "decided at build time.",
      "",
      "Examples:",
      "  treeshaker analyze src/index.js",
      "  treeshaker analyze src/index.js --format json",
      "  treeshaker analyze --format yaml"]
  | init => "Creates a config file holding every option at its default value." ++
      " Existing files are never overwritten."
  | help => ofLines [
      "Help provides help for any command in the application.",
      "Simply type treeshaker help [path to command] for full details."]
  | completion => ofLines [
      "Generate the autocompletion script for treeshaker for the specified shell.",
      "See each sub-command's help for details on how to use the generated script."]
  | completionFor shell => completionText shell

/-- What stands behind the name of a command. -/
def callForm : Name → String
  | build | analyze => "[entry.js...] [flags]"
  | init => "[path] [flags]"
  | help => "[command] [flags]"
  | completionFor .bash | root | completion => ""
  | completionFor _ => "[flags]"

end Name

def Flag.valueText (f : Flag) : String :=
  match f.valueName, f.kind with
  | some name, _ => " " ++ name
  | none, .switch => ""
  | none, .count => " count"
  | none, .text => " string"
  | none, .integer => " int"
  | none, .texts => " strings"

/-- The left column of a table of flags. -/
def Flag.head (f : Flag) : String :=
  (match f.short with
    | some c => s!"  -{c}, --{f.name}"
    | none => s!"      --{f.name}") ++ f.valueText

/-- The right column of a table of flags. -/
def Flag.explanation (f : Flag) : String :=
  f.purpose ++ (match f.initially with
    | some v => s!" (default {v})"
    | none => "")

/-- Flags by name, one a line. -/
def flagTable (flags : List Flag) : String :=
  let sorted := flags.mergeSort fun f g => f.name ≤ g.name
  let width := sorted.foldl (fun n f => max n f.head.length) 0
  String.join (sorted.map fun f =>
    f.head ++ String.ofList (List.replicate (width + 3 - f.head.length) ' ') ++ f.explanation ++
      "\n")

def commandLine (c : Name) : String :=
  "  " ++ c.text ++ String.ofList (List.replicate (12 - c.text.length) ' ') ++ c.summary ++ "\n"

/-- How a command is called. -/
def usageOf (c : Name) (flags : List Flag) : String :=
  let call := if c.callForm.isEmpty then c.path else s!"{c.path} {c.callForm}"
  let children := c.children.mergeSort fun a b => a.text ≤ b.text
  "Usage:\n" ++ (if c.isRunnable then s!"  {call}\n" else s!"  {c.path} [command]\n") ++
    (if children.isEmpty then "" else
      "\nAvailable Commands:\n" ++ String.join (children.map commandLine)) ++
    "\nFlags:\n" ++ flagTable flags ++
    (if c = .root then "" else "\nGlobal Flags:\n" ++ flagTable Name.sharedFlags) ++
    (if children.isEmpty then "" else
      s!"\nUse \"{c.path} [command] --help\" for more information about a command.\n")

/-- The whole help of a command. -/
def helpText (c : Name) : Bytes :=
  let own := if c = .root then c.flags else c.ownFlags ++ c.askingFlags
  utf8 (c.description ++ "\n\n" ++ usageOf c own)

def rootUsage : Bytes := utf8 (usageOf .root Name.sharedFlags)

/-- Whether backquotes can hold a text. -/
def canBackquote (s : Bytes) : Bool :=
  (Utf8.runes s).all fun r =>
    r.code != 0xFEFF && r.code != 0xFFFD && r.code != 0x60 && r.code != 0x7F &&
      (r.code ≥ 0x20 || r.code == 9)

/-- The complaint about words that name no command. -/
def unknownTopic (words : List Bytes) : Bytes :=
  let quote (s : Bytes) : Bytes :=
    if canBackquote s then 0x60 :: (s ++ [0x60]) else Text.quoted s
  utf8 "Unknown help topic [" ++ Bytes.join [32] (words.map quote) ++ utf8 "]\n"

end Winnow.Command
