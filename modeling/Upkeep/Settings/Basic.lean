import Upkeep.Disk.Walk

/-!
# Settings

Where the templates and the generators of a project are. Every relative
path of the settings is seen from the project's root.
-/

namespace Upkeep

/-- A template's file name and the generator that renders it. -/
structure Mapping where
  template : Text
  generator : Text
  deriving Repr, DecidableEq

/-- The layout of a project. -/
structure Settings where
  /-- Base of every relative path below. -/
  root : Path
  templatesDir : Path
  /-- Without a dot in front. -/
  templateExtension : Text
  /-- The generator sources to revise, in order. -/
  generatorSources : List Path
  mappings : List Mapping
  deriving Repr, DecidableEq

namespace Settings

def defaultGeneratorDir : Path :=
  "plugin/src/main/kotlin/com/only/codegen/generators/aggregate".toList

/-- The generator sources in the usual layout. -/
def defaultGenerators : List Text :=
  ["EntityGenerator.kt".toList,
   "DomainEventGenerator.kt".toList,
   "DomainEventHandlerGenerator.kt".toList,
   "FactoryGenerator.kt".toList,
   "SpecificationGenerator.kt".toList,
   "SchemaGenerator.kt".toList]

/-- The templates of the usual layout. -/
def defaultMappings : List Mapping :=
  [⟨"command.kt.peb".toList, "Command".toList⟩,
   ⟨"query.kt.peb".toList, "Query".toList⟩,
   ⟨"domain_event.kt.peb".toList, "DomainEvent".toList⟩,
   ⟨"domain_event_handler.kt.peb".toList, "DomainEventHandler".toList⟩,
   ⟨"factory.kt.peb".toList, "Factory".toList⟩,
   ⟨"aggregate.kt.peb".toList, "Aggregate".toList⟩,
   ⟨"enum.kt.peb".toList, "Enum".toList⟩,
   ⟨"client.kt.peb".toList, "Client".toList⟩,
   ⟨"client_handler.kt.peb".toList, "ClientHandler".toList⟩,
   ⟨"domain_service.kt.peb".toList, "DomainService".toList⟩,
   ⟨"integration_event.kt.peb".toList, "IntegrationEvent".toList⟩,
   ⟨"integration_event_handler.kt.peb".toList, "IntegrationEventHandler".toList⟩]

def default (root : Path) : Settings where
  root
  templatesDir := "plugin/src/main/resources/templates".toList
  templateExtension := "peb".toList
  generatorSources := defaultGenerators.map (Path.join defaultGeneratorDir)
  mappings := defaultMappings

/-- A configured path as seen from the working directory. -/
def resolve (s : Settings) (p : Path) : Path :=
  if p.isAbsolute then p else s.root.join p

def templatesPath (s : Settings) : Path := s.resolve s.templatesDir

def generatorPaths (s : Settings) : List Path := s.generatorSources.map s.resolve

end Settings

end Upkeep
