import Upkeep.Settings.Basic
import Upkeep.Toml.Document

/-!
# What a settings file overrides

The table `template_tidy` of a settings file has four keys, and none has
to be there. A table may also be written as an array of its values in the
order of the keys; then all of them have to be there, and what follows
them is ignored. The entries of `generators` are tables as well: they may
have further keys, while `template_tidy` may not.
-/

namespace Upkeep

open Toml (Value Table Key)

namespace Toml.Value

def asString? : Value → Option Text
  | string t => some t
  | _ => none

/-- The items of an array or of repeated tables. -/
def asList? : Value → Option (List Value)
  | array vs => some vs
  | tables ts => some (ts.map (table .header))
  | _ => none

def asTable? : Value → Option Table
  | table _ t => some t
  | _ => none

def asStrings? (v : Value) : Option (List Text) := do (← v.asList?).mapM asString?

end Toml.Value

/-- Read the value of a key, if the key is there. -/
def Toml.Table.optional (t : Table) (k : Key) (decode : Value → Option α) : Option (Option α) :=
  match t.get? k with
  | none => some none
  | some v => (decode v).map some

/-- Read the value of a key that has to be there. -/
def Toml.Table.required (t : Table) (k : Key) (decode : Value → Option α) : Option α :=
  t.get? k >>= decode

namespace Mapping

/-- A mapping written as a table, or as an array. -/
def ofValue? (v : Value) : Option Mapping :=
  match v.asTable? with
  | some t => do
      let template ← t.required "template".toList Value.asString?
      let generator ← t.required "generator".toList Value.asString?
      return ⟨template, generator⟩
  | none =>
      match v.asList? with
      | some (a :: b :: _) => do return ⟨← a.asString?, ← b.asString?⟩
      | _ => none

def listOfValue? (v : Value) : Option (List Mapping) := do (← v.asList?).mapM ofValue?

end Mapping

structure Overrides where
  templatesDir : Option Path
  templateExtension : Option Text
  generatorSources : Option (List Path)
  mappings : Option (List Mapping)
  deriving Repr, DecidableEq

namespace Overrides

/-- The table of a settings file that is read. -/
def sectionKey : Key := "template_tidy".toList

/-- The keys of that table. -/
def dirKey : Key := "templates_dir".toList

@[inherit_doc dirKey] def extensionKey : Key := "template_extension".toList

@[inherit_doc dirKey] def sourcesKey : Key := "generator_sources".toList

@[inherit_doc dirKey] def mappingsKey : Key := "generators".toList

/-- All keys of that table. -/
def keys : List Key := [dirKey, extensionKey, sourcesKey, mappingsKey]

/-- The settings of a table. No other key may be there. -/
def ofTable? (t : Table) : Option Overrides :=
  if t.all fun e => keys.contains e.1 then do
    let templatesDir ← t.optional dirKey Value.asString?
    let templateExtension ← t.optional extensionKey Value.asString?
    let generatorSources ← t.optional sourcesKey Value.asStrings?
    let mappings ← t.optional mappingsKey Mapping.listOfValue?
    return ⟨templatesDir, templateExtension, generatorSources, mappings⟩
  else none

/-- The settings written as a table, or as an array. -/
def ofValue? (v : Value) : Option Overrides :=
  match v.asTable? with
  | some t => ofTable? t
  | none =>
      match v.asList? with
      | some (a :: b :: c :: d :: _) => do
          return ⟨some (← a.asString?), some (← b.asString?), some (← c.asStrings?),
            some (← Mapping.listOfValue? d)⟩
      | _ => none

end Overrides

end Upkeep
