import Winnow.Graph.Basic

/-!
# Tracing imports and exports

Which variable an export or an import stands for in the end. What was found is remembered, so every
fault on the way is reported once. A search is given a number of steps; `Graph.traceSteps` is more
than any search needs that does not run in circles.
-/

namespace Winnow.Graph

/-! ## Names reached through `export *` -/

def starName (source : Bytes) : Bytes := 42 :: source

def starSource? : Bytes → Option Bytes
  | 42 :: source => some source
  | _ => none

/-- The names a module exports through `export *`, given the modules that are not looked at again,
and those modules afterwards. Names the module exports by itself, and `default`, are not among
them. -/
def starNamesFrom (g : Graph) : (steps : Nat) → (visited : List ModuleId) → (m : ModuleId) →
    List Bytes × List ModuleId
  | 0, visited, _ => ([], visited)
  | n + 1, visited, m =>
    match g.module? m with
    | none => ([], visited)
    | some mod =>
      let (names, visited) := mod.starSources.foldl (fun (names, visited) source =>
        match mod.target? source with
        | none => (names ++ [starName source], visited)
        | some t =>
          if visited.contains t then (names, visited)
          else
            let own := ((g.module? t).map Module.exportNames).getD []
            let (more, visited) := starNamesFrom g n visited t
            (names ++ own.filter (· ≠ utf8 "default") ++ more, visited)) ([], m :: visited)
      ((names.filter fun name => !mod.exportNames.contains name).eraseDups, visited)

def starNames (g : Graph) (m : ModuleId) : List Bytes :=
  (g.starNamesFrom (g.modules.size + 1) [] m).1

/-! ## Modules outside the bundle -/

def addExternalSource (g : Graph) (source : Bytes) : Graph :=
  if g.externalSources.contains source then g
  else { g with externalSources := g.externalSources ++ [source] }

def externalName (source imported : Bytes) : Bytes :=
  if imported = utf8 "*" ∨ imported = utf8 "default" then Name.ofText source else imported

def newExternal (source imported : Bytes) : Variable :=
  { name := externalName source imported, form := .external source imported }

def externalVariable (source imported : Bytes) : StateM Graph VarId := do
  modify fun g => g.addExternalSource source
  let g ← get
  match g.externals.lookup (source, imported) with
  | some v => return v
  | none =>
    let (v, g) := g.addVariable (newExternal source imported)
    set { g with externals := g.externals ++ [((source, imported), v)] }
    return v

/-! ## Namespaces -/

/-- The namespace object of a module, which is made when it is first needed, together with the
namespaces of the outside sources merged into it. -/
def namespaceVariable (m : ModuleId) : StateM Graph VarId := do
  let g ← get
  match (g.module? m).bind Module.namespaceVar with
  | some v => return v
  | none =>
    let name := Module.defaultName (g.pathOf m)
    let (v, g) := g.addVariable { name, form := .moduleNamespace [], module := some m }
    set (g.modifyModule m fun mod => { mod with namespaceVar := some v })
    let merged ← ((← get).starNames m).filterMapM fun name =>
      match starSource? name with
      | some source => some <$> externalVariable source (utf8 "*")
      | none => pure none
    modify fun g => g.modifyVar v fun w => { w with form := .moduleNamespace merged }
    return v

/-! ## Searches -/

def missingMessage (name path how importer : Bytes) : Bytes :=
  Text.quoted name ++ utf8 " is not exported by " ++ Text.quoted path ++ utf8 ", " ++ how ++
    utf8 " by " ++ Text.quoted importer

def conflictMessage (path name first second : Bytes) : Bytes :=
  utf8 "Conflicting namespaces: " ++ Text.quoted path ++ utf8 " re-exports " ++ Text.quoted name ++
    utf8 " from both " ++ Text.quoted first ++ utf8 " and " ++ Text.quoted second ++
    utf8 " (the first one is used)"

def reportConflict (m : ModuleId) (name first second : Bytes) : StateM Graph Unit :=
  modify fun g =>
    if ((g.module? m).map Module.conflicts).getD [] |>.contains name then g
    else
      let g := g.modifyModule m fun mod => { mod with conflicts := name :: mod.conflicts }
      g.warn m .namespaceConflict (conflictMessage (g.pathOf m) name first second) 0

mutual

def traceExportIn : (steps : Nat) → (m : ModuleId) → (name : Bytes) →
    StateM Graph (Option VarId)
  | 0, _, _ => return none
  | n + 1, m, name => do
    match ((← get).module? m).bind fun mod => mod.tracedExports.lookup name with
    | some found => return found
    | none =>
      let found ← searchExport n [] m name
      modify fun g => g.modifyModule m fun mod =>
        { mod with tracedExports := (name, found) :: mod.tracedExports }
      return found

/-- Searches for an export, given the modules whose exports the search has gone through. -/
def searchExport : (steps : Nat) → (active : List ModuleId) → (m : ModuleId) → (name : Bytes) →
    StateM Graph (Option VarId)
  | 0, _, _, _ => return none
  | n + 1, active, m, name => do
    let some mod := (← get).module? m | return none
    if name = utf8 "*" then return some (← namespaceVariable m)
    match mod.localExport? name with
    | some e => localVariable n m mod e.target
    | none =>
      if active.contains m then return none
      match mod.reexport? name with
      | some e =>
        match mod.target? e.specifier with
        | none => return some (← externalVariable e.specifier e.localName)
        | some t =>
          if e.localName = utf8 "*" then return some (← namespaceVariable t)
          let found ← searchExport n (m :: active) t e.localName
          if found.isNone then
            modify fun g => g.reportError m .missingExport
              (missingMessage e.localName (g.pathOf t) (utf8 "re-exported") (g.pathOf m))
              e.position
          return found
      | none =>
        if name = utf8 "default" then return none
        let found ← mod.starSources.foldlM (fun (found : Option (VarId × ModuleId)) source => do
          match mod.target? source with
          | none => return found
          | some t =>
            match found, ← searchExport n (m :: active) t name with
            | found, none => return found
            | none, some v => return some (v, t)
            | some (v, first), some w =>
              if v ≠ w then
                let g ← get
                reportConflict m name (g.pathOf first) (g.pathOf t)
              return some (v, first)) none
        return found.map Prod.fst

/-- The variable behind an export of the module's own, which may pass on an import. -/
def localVariable : (steps : Nat) → (m : ModuleId) → (mod : Module) → (target : ExportTarget) →
    StateM Graph (Option VarId)
  | 0, _, _, _ => return none
  | _ + 1, _, mod, .defaultValue => return mod.defaultVar
  | n + 1, m, mod, .binding name => do
    match (← get).symbols.lookupIn? mod.program.scope name with
    | some v => return some v
    | none => return (← traceImportIn n m name).bind id

/-- The variable behind a local name that an import binds: none if no import binds it, and an empty
answer if the imported module has no such export. -/
def traceImportIn : (steps : Nat) → (m : ModuleId) → (name : Bytes) →
    StateM Graph (Option (Option VarId))
  | 0, _, _ => return none
  | n + 1, m, name => do
    let some mod := (← get).module? m | return none
    match mod.imports.lookup name, mod.tracedImports.lookup name with
    | none, _ => return none
    | some _, some found => return some found
    | some binding, none =>
      let found ← match mod.target? binding.specifier with
        | none => some <$> externalVariable binding.specifier binding.imported
        | some t =>
          if binding.imported = utf8 "*" then some <$> namespaceVariable t
          else do
            let found ← traceExportIn n t binding.imported
            if found.isNone then
              modify fun g => g.reportError m .missingExport
                (missingMessage binding.imported (g.pathOf t) (utf8 "imported") (g.pathOf m))
                binding.position
            pure found
      modify fun g => g.modifyModule m fun mod =>
        { mod with tracedImports := (name, found) :: mod.tracedImports }
      return some found

end

/-- A number of steps that no search needs unless it runs in circles: a search passes at most once
through every import, and between two imports at most once through every module. -/
def traceSteps (g : Graph) : Nat :=
  ((g.modules.foldl (fun n m => n + m.imports.length) 0) + 2) * (g.modules.size + 4)

def traceExport (m : ModuleId) (name : Bytes) : StateM Graph (Option VarId) := do
  traceExportIn (← get).traceSteps m name

def traceImport (m : ModuleId) (name : Bytes) : StateM Graph (Option (Option VarId)) := do
  traceImportIn (← get).traceSteps m name

/-- The members of the namespace object of a module, in export order: every name it exports by
itself or through `export *`, with the variable behind it. -/
def namespaceMembers (m : ModuleId) : StateM Graph (List (Bytes × VarId)) := do
  let g ← get
  let names := ((g.module? m).map Module.exportNames).getD [] ++ g.starNames m
  let names := (names.filter fun name => (starSource? name).isNone).eraseDups
  names.filterMapM fun name => do
    return (← traceExport m name).map fun v => (name, v)

def namespaceMember? (m : ModuleId) (name : Bytes) : StateM Graph (Option VarId) := do
  return (← namespaceMembers m).lookup name

end Winnow.Graph
