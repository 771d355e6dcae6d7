import Upkeep.Batch
import Upkeep.Disk.Listing
import Upkeep.Imports
import Upkeep.Rule.Stock
import Upkeep.Settings.Load

/-!
# Commands

Three commands work on a project: one reports the imports of its
templates, one revises its generators, one revises its templates. What is
wrong with a single file is part of a command's report. Only a project
without the directory of its templates makes a command fail, and it does
so before anything is printed or written.
-/

namespace Upkeep

/-- Why a command cannot be run. -/
inductive Fatal where
  | settings (e : SettingsError)
  | noTemplatesDir (dir : Path)
  | noDirectory (e : DirectoryMissing)
  /-- The rules of a job are refused. -/
  | rules (job : String) (e : PatternError)
  deriving Repr, DecidableEq

/-- The texts shown, the outermost first. -/
def Fatal.chain : Fatal → List Text
  | settings e => "failed to load config".toList :: e.chain
  | noTemplatesDir dir => ["templates directory not found: ".toList ++ dir]
  | noDirectory e => [e.message]
  | rules job e => [s!"invalid {job} rule set".toList, e.message.toList]

/-- What a command leaves behind: its result, what it printed, and the
disk. -/
structure Effect (α : Type) where
  result : Except Fatal α
  output : Text
  disk : Disk

namespace Effect

/-- A command that fails before it does anything. -/
def fail (d : Disk) (e : Fatal) : Effect α := ⟨.error e, [], d⟩

def map (f : α → β) (e : Effect α) : Effect β := ⟨e.result.map f, e.output, e.disk⟩

end Effect

/-- The report of a batch with the lines around it. -/
def batchOutput (title : Text) (report : Report) : Text :=
  Text.ofLines [title, []] ++ report.render ++ Text.ofLines [[], "Done!".toList]

def printBatch (title : Text) (set : RuleSet) (mode : WriteMode) (d : Disk) (paths : List Path) :
    Effect Report :=
  let done := runBatch set mode d paths
  ⟨.ok done.1, batchOutput title done.1, done.2⟩

def analyzeImports (s : Settings) (d : Disk) : Effect (List ImportRecord) :=
  if d.isDir s.templatesPath then
    let records := analyzeTemplates d s.templatesPath s.mappings
    ⟨.ok records, renderImports records, d⟩
  else .fail d (.noTemplatesDir s.templatesPath)

def simplifyGenerators (s : Settings) (mode : WriteMode) (d : Disk) : Effect Report :=
  match Stock.generatorRules with
  | .error e => .fail d (.rules "generator" e)
  | .ok set =>
      printBatch "Processing aggregate generators...".toList set mode d s.generatorPaths

def simplifyTemplates (s : Settings) (mode : WriteMode) (d : Disk) : Effect Report :=
  let dir := s.templatesPath
  if d.isDir dir then
    match Stock.templateRules with
    | .error e => .fail d (.rules "template" e)
    | .ok set =>
        match d.listFiles dir s.templateExtension with
        | .error e => .fail d (.noDirectory e)
        | .ok paths => printBatch ("Processing templates in: ".toList ++ dir) set mode d paths
  else .fail d (.noTemplatesDir dir)

end Upkeep
