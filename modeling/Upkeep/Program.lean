import Upkeep.Arguments
import Upkeep.Command

/-!
# The program

An invocation loads the settings and runs its job. A program run turns
the arguments into an invocation and adds the exit code: zero if it did
what was asked for, one if the job could not be run, two if the arguments
make no sense.
-/

namespace Upkeep

namespace Invocation

def runWith (inv : Invocation) (s : Settings) (d : Disk) : Effect Unit :=
  match inv.job with
  | .imports => (analyzeImports s d).map fun _ => ()
  | .generators => (simplifyGenerators s (.ofDryRun inv.dryRun) d).map fun _ => ()
  | .templates => (simplifyTemplates s (.ofDryRun inv.dryRun) d).map fun _ => ()

/-- Load the settings and run the job of an invocation. -/
def run (inv : Invocation) (d : Disk) : Effect Unit :=
  match Settings.load d inv.root inv.config with
  | .error e => .fail d (.settings e)
  | .ok s => inv.runWith s d

end Invocation

/-- What a run of the program leaves behind. -/
structure ProgramRun where
  exitCode : Nat
  output : Text
  /-- What made the job impossible, the outermost cause first. -/
  complaint : List Text
  disk : Disk

namespace Program

def versionLine : Text := "template-tidy 0.1.0".toList

/-- A short description of the arguments. -/
def usage : Text :=
  Text.ofLines
    ["Keeps code-generation templates and generators consistent".toList,
     [],
     "Usage: template-tidy [OPTIONS] <COMMAND>".toList,
     [],
     "Commands:".toList,
     "  imports     Report the literal (non-templated) imports of each generator template".toList,
     "  generators  Collapse the legacy commentLines block in aggregate generator sources".toList,
     "  templates   Replace the commentLines loop in templates with a single Comment line".toList,
     "  help        Print this message or the help of the given subcommand(s)".toList,
     [],
     "Options:".toList,
     "  -v...                  Increase verbosity (-v, -vv, -vvv)".toList,
     "      --root <ROOT>      Project root that configured paths are relative to".toList,
     "      --config <CONFIG>  Config file (defaults to <root>/template-tidy.toml)".toList,
     "  -h, --help             Print help".toList,
     "  -V, --version          Print version".toList]

/-- The run that an invocation's effect amounts to. -/
def ofEffect (e : Effect Unit) : ProgramRun :=
  match e.result with
  | .ok () => ⟨0, e.output, [], e.disk⟩
  | .error fatal => ⟨1, e.output, fatal.chain, e.disk⟩

def run (args : List Text) (d : Disk) : ProgramRun :=
  match Request.ofArguments args with
  | .run inv => ofEffect (inv.run d)
  | .help => ⟨0, usage, [], d⟩
  | .version => ⟨0, Text.ofLines [versionLine], [], d⟩
  | .invalid => ⟨2, [], [], d⟩

end Program

end Upkeep
