import SchemaWeaver.Marking
import SchemaWeaver.Model
import SchemaWeaver.Package
import SchemaWeaver.Source.Import

/-!
The pass over a package. For each module the schemas of all its documents are gathered first; only
then are its documents marked, because a type may be defined in another document than the call that
needs its schema. A module that cannot be analysed is left as it is, and the others are not
affected.
-/

set_option autoImplicit false
set_option relaxedAutoImplicit false

namespace SchemaWeaver

open Source (AiImport Tree)

/-- A modified document, the keys of the documents that need the import of the mark's module so far,
and events. -/
structure DocumentOutcome where
  document : ModifiedDocument
  required : List DocumentKey
  events : List Event

/-- Mark the type definitions of a document and import the mark's module if a document with its key
got a mark. -/
def modifyDocument (module : String) (catalog : Catalog) (required : List DocumentKey)
    (key : DocumentKey) (d : Document) : DocumentOutcome :=
  let visibility := AiImport.ofImports d.tree.imports
  let (marked, required, events) :=
    match visibility.qualifier? with
    | some qualifier =>
        let marker : Marker := ⟨catalog, qualifier⟩
        (marker.markTree d.tree,
          if marker.insertions d.tree > 0 then key :: required else required,
          marker.events d.tree)
    | none =>
        (d.tree, required,
          if d.tree.typeDefs.any fun definition => Keyed.has catalog definition.name then
            [Event.importSuppressed d.name]
          else [])
  let needed := decide (key ∈ required)
  let tree := marked.ensureAiImport needed
  let added := if needed && visibility = .absent then [Event.importAdded d.name] else []
  ⟨⟨module, key, tree, tree ≠ d.tree⟩, required, events ++ added⟩

def modifyDocuments (module : String) (catalog : Catalog) (required : List DocumentKey) :
    Keyed DocumentKey Document → List ModifiedDocument × List Event
  | [] => ([], [])
  | (key, d) :: rest =>
      let outcome := modifyDocument module catalog required key d
      let (documents, events) := modifyDocuments module catalog outcome.required rest
      (outcome.document :: documents, outcome.events ++ events)

/-- What is done for a module: the report on it, its modified documents, the names whose raw schema
was asked for, and the events. -/
structure ModuleOutcome where
  report : ModuleReport
  documents : List ModifiedDocument
  asked : List String
  events : List Event

structure Pass where
  source : SchemaSource
  settings : Settings

namespace Pass

def gatherDocument (pass : Pass) (model : Model) (provider : ObjectType) (d : Document)
    (g : Gathering) : Walked :=
  let walker : Walker := ⟨model, pass.source, pass.settings⟩
  let g := { g with events := g.events ++ model.callEvents provider d.tree }
  walkAll walker.gather (model.resultTypes provider d.tree) g

def gatherModule (pass : Pass) (model : Model) (provider : ObjectType) (m : Module) : Walked :=
  walkAll (fun entry => pass.gatherDocument model provider entry.2) m.keyedDocuments
    (Gathering.ofCatalog [])

def skip (m : Module) (reason : SkipReason) (asked : List String) (events : List Event) :
    ModuleOutcome :=
  ⟨⟨m.name, [], some reason⟩, [], asked, events ++ [.moduleUntouched m.name reason]⟩

def runModule (pass : Pass) (model : Model) (m : Module) : ModuleOutcome :=
  match model.provider? with
  | none => skip m .providerUnresolved [] []
  | some provider =>
      match pass.gatherModule model provider m with
      | .failed fault g =>
          skip m (.analysisFailed fault) g.asked.toList
            (g.events.toList ++ [.analysisFailed m.name fault])
      | .done g =>
          let (documents, events) := modifyDocuments m.name g.catalog [] m.keyedDocuments
          ⟨⟨m.name, g.catalog, none⟩, documents, g.asked.toList,
            g.events.toList ++ .analysisComplete m.name g.catalog.length :: events⟩

def moduleOutcome (pass : Pass) (compilation : Compilation) (m : Module) : ModuleOutcome :=
  match Keyed.get? compilation.models m.name with
  | none => skip m .noModel [] []
  | some model => pass.runModule model m

structure Outcome where
  modification : Modification
  asked : List String
  events : List Event

/-- Run a pass over a package. A package with errors is left as it is. -/
def run (pass : Pass) (package : Package) (compilation : Compilation) : Outcome :=
  if compilation.errors > 0 then
    ⟨⟨some (.compilationErrors compilation.errors), [], []⟩, [],
      [.compilationFailed compilation.errors]⟩
  else
    let outcomes := package.modules.map (pass.moduleOutcome compilation)
    ⟨⟨none, outcomes.map ModuleOutcome.report, outcomes.flatMap ModuleOutcome.documents⟩,
      outcomes.flatMap ModuleOutcome.asked, outcomes.flatMap ModuleOutcome.events⟩

/-- The pass with the raw schemas of the models, under settings that are read from variables. -/
def ofVariables (value? : String → Option String) : Except Fault Pass :=
  match Settings.ofVariables value? with
  | .ok settings => .ok ⟨Schema.ofModel, settings⟩
  | .error cause => .error (.settings cause)

end Pass

end SchemaWeaver
