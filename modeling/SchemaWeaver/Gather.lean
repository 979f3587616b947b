import SchemaWeaver.Event
import SchemaWeaver.Model
import SchemaWeaver.Schema.Canonical

/-!
Gathering schemas: a walk from a type to every named data type that it is built from, each of which
gets its schema into a catalog. The walk goes a bounded number of steps deep. If recursion is
guarded, a name inside its own definition is not walked again.
-/

set_option autoImplicit false
set_option relaxedAutoImplicit false

namespace SchemaWeaver

abbrev Catalog := Keyed String String

abbrev SchemaSource := String → Model → Except Schema.Fault Json

def Schema.ofModel : SchemaSource := fun name model => Schema.ofName model.definitions name

/-- What a walk has gathered: the catalog, the names whose raw schema was asked for, and the events,
both in order. -/
structure Gathering where
  catalog : Catalog
  asked : Array String
  events : Array Event

namespace Gathering

def ofCatalog (catalog : Catalog) : Gathering := ⟨catalog, #[], #[]⟩

def report (g : Gathering) (event : Event) : Gathering :=
  { g with events := g.events.push event }

def ask (g : Gathering) (name : String) : Gathering :=
  { g with asked := g.asked.push name }

def write (g : Gathering) (name text : String) : Gathering :=
  let event := if Keyed.has g.catalog name then .schemaRecomputed name else .schemaAdded name
  { g with catalog := Keyed.insert g.catalog name text }.report event

end Gathering

/-- The end of a walk: it is done, or it failed on the way. What was gathered is kept. -/
inductive Walked where
  | done (g : Gathering)
  | failed (fault : Fault) (g : Gathering)

def Walked.gathering : Walked → Gathering
  | .done g => g
  | .failed _ g => g

def Walked.andThen (w : Walked) (next : Gathering → Walked) : Walked :=
  match w with
  | .done g => next g
  | .failed fault g => .failed fault g

/-- Walk one after the other until one fails. -/
def walkAll {α : Type} (walk : α → Gathering → Walked) : List α → Gathering → Walked
  | [], g => .done g
  | a :: rest, g => (walk a g).andThen (walkAll walk rest)

structure Walker where
  model : Model
  source : SchemaSource
  settings : Settings

namespace Walker

/-- Whether a name gets a schema: its type is plain data. -/
def isEligible (w : Walker) (name : String) : Bool :=
  w.model.isSubtypeOf (.ref name) (.scalar .anydata)

def record (w : Walker) (name : String) (g : Gathering) : Walked :=
  match w.source name w.model with
  | .ok raw => .done ((g.ask name).write name (Schema.canonicalText raw))
  | .error cause =>
      let fault := Fault.mapping name cause
      match w.settings.policy with
      | .skipEntry => .done ((g.ask name).report (.entrySkipped name fault))
      | .abortModule => .failed fault (g.ask name)

/-- Walk a type. There is `room` for so many steps, and the names in `expanding`, outermost first,
are being walked. -/
def walk (w : Walker) : Nat → List String → Descriptor → Gathering → Walked
  | 0, expanding, _, g => .failed (.depthExceeded (expanding.head?.getD "")) g
  | room + 1, expanding, .ref name, g =>
      if w.settings.cycleGuard && name ∈ expanding then .done (g.report (.alreadyExpanding name))
      else if !w.isEligible name then .done (g.report (.notData name))
      else
        (w.record name g).andThen fun g =>
          match w.model.definitions[name]? with
          | none => .done g
          | some target => walk w room (expanding ++ [name]) target g
  | room + 1, expanding, t, g => walkAll (walk w room expanding) t.components g

/-- Gather the schemas of all named data types that a type is built from. -/
def gather (w : Walker) (t : Descriptor) (g : Gathering) : Walked :=
  w.walk (w.settings.walkDepth + 1) [] t g

end Walker

end SchemaWeaver
