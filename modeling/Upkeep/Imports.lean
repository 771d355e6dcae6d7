import Upkeep.Failure
import Upkeep.Settings.Basic

/-!
# Literal imports of templates

A template writes some of its imports out and leaves others to an
interpolation. Collected are the written ones: the lines that start with
`import ` once the blanks around them are gone, and on which no
interpolation is opened. The rest of such a line is the import.
-/

namespace Upkeep

/-! ## Extraction -/

/-- What an import line starts with. -/
def importKeyword : Text := "import ".toList

def interpolationMark : Text := "\x7b\x7b".toList

/-- The import written on a line, if there is one. -/
def importOf? (line : Text) : Option Text :=
  if Text.contains interpolationMark line then none
  else (Text.dropFront? importKeyword (Text.trim line)).map Text.trim

/-- The imports written out in a text, in order. -/
def literalImports (t : Text) : List Text := (Text.lines t).filterMap importOf?

/-! ## Analysis -/

inductive ImportStatus where
  | missing
  | unreadable (cause : Text)
  /-- The template can be read and writes no import out. -/
  | dynamicOnly
  | literal (imports : List Text)
  deriving Repr, DecidableEq

/-- The imports of one template. -/
structure ImportRecord where
  generator : Text
  template : Text
  status : ImportStatus
  deriving Repr, DecidableEq

/-- The status that follows from reading a template. -/
def ImportStatus.ofRead : Except Failure Text → ImportStatus
  | .error (.notFound _) => missing
  | .error failure => unreadable failure.message
  | .ok t =>
      match literalImports t with
      | [] => dynamicOnly
      | imports => literal imports

/-- Look up the imports of every mapped template. -/
def analyzeTemplates (d : Disk) (dir : Path) (mappings : List Mapping) : List ImportRecord :=
  mappings.map fun m =>
    ⟨m.generator, m.template, .ofRead (d.loadText (dir.join m.template))⟩

/-! ## Rendering -/

def ImportRecord.lines (r : ImportRecord) : List Text :=
  match r.status with
  | .missing => ["⚠ ".toList ++ r.template ++ " - NOT FOUND".toList]
  | .unreadable cause => ["✗ ".toList ++ r.template ++ " - ".toList ++ cause]
  | .dynamicOnly =>
      ["✓ ".toList ++ r.generator ++ "ImportManager - No base imports (dynamic only)".toList, []]
  | .literal imports =>
      ["✓ ".toList ++ r.generator ++ "ImportManager:".toList,
       "  File: ".toList ++ r.template,
       "  Base imports:".toList]
        ++ imports.map ("    - ".toList ++ ·) ++ [[]]

def renderImports (records : List ImportRecord) : Text :=
  Text.ofLines
    (["=== Template Imports Analysis ===".toList, []] ++ records.flatMap ImportRecord.lines)

end Upkeep
