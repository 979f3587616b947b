import SchemaWeaver.Descriptor.Definitions
import SchemaWeaver.Event
import SchemaWeaver.Source.Preorder
import SchemaWeaver.Source.Text
import SchemaWeaver.Source.Tree

/-!
What is known about a module after its names were resolved: its type definitions, the types it can
see elsewhere, and the static types of its variables and of its remote calls. From it the call sites
are found, which are the calls of the method `generate` on a model provider; the static types of
their results are the types that need a schema.
-/

set_option autoImplicit false
set_option relaxedAutoImplicit false

namespace SchemaWeaver

open Source (Expr RemoteCall Tree)

structure QualifiedName where
  home : ModuleId
  name : String
  deriving DecidableEq, Repr

/-- What a qualified name stands for. -/
inductive Symbol where
  | classType (type : ObjectType)
  | plainType (type : Descriptor)
  deriving DecidableEq, Repr

structure Model where
  definitions : Definitions
  symbols : Keyed QualifiedName Symbol
  variableTypes : Keyed String Descriptor
  results : Keyed Nat Descriptor

namespace Model

def empty : Model := ⟨∅, [], [], []⟩

def addSymbol (m : Model) (name : QualifiedName) (symbol : Symbol) : Model :=
  { m with symbols := Keyed.insert m.symbols name symbol }

def addClass (m : Model) (type : ObjectType) : Model :=
  m.addSymbol ⟨type.home, type.name⟩ (.classType type)

def addVariable (m : Model) (name : String) (type : Descriptor) : Model :=
  { m with variableTypes := Keyed.insert m.variableTypes name type }

def addResult (m : Model) (id : Nat) (type : Descriptor) : Model :=
  { m with results := Keyed.insert m.results id type }

def symbol? (m : Model) (name : QualifiedName) : Option Symbol :=
  Keyed.get? m.symbols name

def isSubtypeOf (m : Model) (sub sup : Descriptor) : Bool :=
  m.definitions.isSubtypeOf sub sup

end Model

/-- What is left of a type once errors are dealt with: a union without its error members, or the
only member that remains. -/
def Descriptor.withoutErrors : Descriptor → Descriptor
  | .union members =>
      match members.filter fun member => member ≠ .error with
      | [member] => member
      | kept => .union kept
  | t => t

def Model.typeOf? (m : Model) : Expr → Option Descriptor
  | .name (.simple name) => Keyed.get? m.variableTypes name
  | .remote call => Keyed.get? m.results call.id
  | .check inner => (m.typeOf? inner).map Descriptor.withoutErrors
  | _ => none

/-! ## Call sites -/

def providerName : QualifiedName := ⟨⟨"ballerinax", "ai.ollama", "1"⟩, "ModelProvider"⟩

def generateMethod : String := "generate"

namespace Model

def provider? (m : Model) : Option ObjectType :=
  match m.symbol? providerName with
  | some (.classType type) => some type
  | _ => none

/-- Whether a call is a call site: its method is `generate` and its receiver is a provider. -/
def isCallSite (m : Model) (provider : ObjectType) (call : RemoteCall Expr) : Bool :=
  call.method = generateMethod &&
    (m.typeOf? call.receiver).any fun type => m.isSubtypeOf type (.object provider)

/-- The call sites of a document in preorder. -/
def callSites (m : Model) (provider : ObjectType) (tree : Tree) : List (RemoteCall Expr) :=
  tree.calls.filter (m.isCallSite provider)

def resultOf? (m : Model) (call : RemoteCall Expr) : Option Descriptor :=
  Keyed.get? m.results call.id

def resultTypes (m : Model) (provider : ObjectType) (tree : Tree) : List Descriptor :=
  (m.callSites provider tree).filterMap m.resultOf?

def callEvent (m : Model) (call : RemoteCall Expr) : Event :=
  let text := String.ofList call.text
  if (m.resultOf? call).isSome then .callFound text else .callUntyped text

def callEvents (m : Model) (provider : ObjectType) (tree : Tree) : List Event :=
  (m.callSites provider tree).map m.callEvent

end Model

end SchemaWeaver
