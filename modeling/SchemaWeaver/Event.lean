import SchemaWeaver.Schema.Raw
import SchemaWeaver.Settings
import SchemaWeaver.Source.Text

/-!
The faults that a pass or one of its parts can end with, the reasons for which it leaves a module or
a package as it is, and the events that it reports on its way, with their wording.
-/

set_option autoImplicit false
set_option relaxedAutoImplicit false

namespace SchemaWeaver

inductive Fault where
  | mapping (name : String) (cause : Schema.Fault)
  | depthExceeded (root : String)
  | invalidLiteral (cause : Source.LiteralFault)
  | invalidImport (text : String)
  | settings (cause : SettingsFault)

def Fault.message : Fault → String
  | .mapping name cause => "schema mapping failed for type '" ++ name ++ "': " ++ cause.message
  | .depthExceeded root => "type closure of '" ++ root ++ "' exceeds the maximum walk depth"
  | .invalidLiteral cause => "schema text is not a mapping constructor: " ++ cause.message
  | .invalidImport text => "invalid import declaration: " ++ text
  | .settings cause => "invalid configuration: " ++ cause.message

/-- Why a module or a package is left as it is. Rewriting a document is no reason: it could only
fail if the import that is added could not be read (`Source.AiImport.read?_declaration`). -/
inductive SkipReason where
  | compilationErrors (count : Nat)
  | noModel
  | providerUnresolved
  | analysisFailed (fault : Fault)

def SkipReason.message : SkipReason → String
  | .compilationErrors count => "package has " ++ toString count ++ " compilation error(s)"
  | .noModel => "no semantic model for module"
  | .providerUnresolved => "model provider type is not visible"
  | .analysisFailed fault => "schema analysis failed: " ++ fault.message

inductive Level where
  | trace
  | debug
  | warn
  deriving DecidableEq, Repr

inductive Event where
  | alreadyExpanding (type : String)
  | notData (type : String)
  | schemaAdded (type : String)
  | schemaRecomputed (type : String)
  | entrySkipped (type : String) (fault : Fault)
  | callFound (call : String)
  | callUntyped (call : String)
  | literalInvalid (type : String) (fault : Fault)
  | markAdded (type : String)
  | compilationFailed (errors : Nat)
  | moduleUntouched (module : String) (reason : SkipReason)
  | analysisFailed (module : String) (fault : Fault)
  | analysisComplete (module : String) (schemas : Nat)
  | importSuppressed (document : String)
  | importAdded (document : String)

namespace Event

def level : Event → Level
  | .alreadyExpanding _ | .schemaRecomputed _ | .callFound _ => .trace
  | .entrySkipped _ _ | .literalInvalid _ _ | .analysisFailed _ _ | .importSuppressed _ => .warn
  | _ => .debug

def message : Event → String
  | .alreadyExpanding _ => "Already expanding, not revisiting"
  | .notData _ => "Not anydata, no schema emitted"
  | .schemaAdded _ => "Schema added"
  | .schemaRecomputed _ => "Schema recomputed"
  | .entrySkipped _ _ => "Skipping schema for type"
  | .callFound _ => "Found generate call"
  | .callUntyped _ => "Generate call has no resolved type"
  | .literalInvalid _ _ => "Schema is not a valid literal"
  | .markAdded _ => "Adding schema annotation"
  | .compilationFailed _ => "Compilation has errors, skipping schema annotation"
  | .moduleUntouched _ _ => "Module left untouched"
  | .analysisFailed _ _ => "Schema analysis failed"
  | .analysisComplete _ _ => "Analysis complete"
  | .importSuppressed _ =>
      "ballerina/ai is imported as '_'; schema annotations cannot be added"
  | .importAdded _ => "Added ballerina/ai import"

def fields : Event → Keyed String String
  | .alreadyExpanding type | .notData type | .schemaAdded type | .schemaRecomputed type
  | .markAdded type => [("type_name", type)]
  | .entrySkipped type fault | .literalInvalid type fault =>
      [("type_name", type), ("error", fault.message)]
  | .callFound call | .callUntyped call => [("call", call)]
  | .compilationFailed errors => [("errors", toString errors)]
  | .moduleUntouched module reason => [("module", module), ("reason", reason.message)]
  | .analysisFailed module fault => [("module", module), ("error", fault.message)]
  | .analysisComplete module schemas => [("module", module), ("schemas", toString schemas)]
  | .importSuppressed document | .importAdded document => [("document", document)]

end Event

end SchemaWeaver
