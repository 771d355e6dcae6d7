import Upkeep.Disk.File
import Upkeep.Settings.Overrides

/-!
# Loading the settings

The settings of a project are the usual layout, overridden by a settings
file: the one that is asked for, or else the one in the root, if it is
there.
-/

namespace Upkeep

inductive SettingsError where
  | unreadable (path : Path) (cause : ReadFault)
  /-- No TOML, or values of the wrong form. -/
  | malformed (path : Path)
  /-- The table that is read is missing. -/
  | noSection (path : Path)
  /-- The extension consists of dots. -/
  | emptyExtension
  deriving Repr, DecidableEq

namespace SettingsError

def readMessage : ReadFault → Text
  | .disk fault => fault.message.toList
  | .encoding _ => "stream did not contain valid UTF-8".toList

/-- The text that stands for what is wrong with a malformed file. -/
def malformedMessage : Text := "<toml>".toList

/-- The texts shown, the outermost first. -/
def chain : SettingsError → List Text
  | unreadable path cause => ["failed to read ".toList ++ path, readMessage cause]
  | malformed path => ["failed to parse ".toList ++ path, malformedMessage]
  | noSection path => ["[template_tidy] not found in ".toList ++ path]
  | emptyExtension => ["template_extension must not be empty".toList]

end SettingsError

namespace Settings

def fileName : Name := "template-tidy.toml".toList

/-- An extension without the dots in front. -/
def stripDots (ext : Text) : Text := ext.dropWhile (· == '.')

/-- Replace the settings that are given. -/
def override (s : Settings) (o : Overrides) : Except SettingsError Settings := do
  let ext ←
    match o.templateExtension with
    | none => pure s.templateExtension
    | some ext => if (stripDots ext).isEmpty then throw .emptyExtension else pure (stripDots ext)
  return {
    root := s.root
    templatesDir := o.templatesDir.getD s.templatesDir
    templateExtension := ext
    generatorSources := o.generatorSources.getD s.generatorSources
    mappings := o.mappings.getD s.mappings }

/-- The overrides in the text of a settings file. -/
def readOverrides (path : Path) (t : Text) : Except SettingsError Overrides :=
  match Toml.Document.read t with
  | none => .error (.malformed path)
  | some doc =>
      match doc.get? Overrides.sectionKey with
      | none => .error (.noSection path)
      | some v =>
          match Overrides.ofValue? v with
          | none => .error (.malformed path)
          | some o => .ok o

/-- The usual layout with the overrides of a settings file. -/
def loadFile (d : Disk) (root path : Path) : Except SettingsError Settings :=
  match d.readText path with
  | .error cause => .error (.unreadable path cause)
  | .ok t => readOverrides path t >>= (default root).override

def load (d : Disk) (root : Path) (config : Option Path) : Except SettingsError Settings :=
  match config with
  | some path => loadFile d root path
  | none =>
      let path := root.join fileName
      if d.isFile path then loadFile d root path else .ok (default root)

end Settings

end Upkeep
