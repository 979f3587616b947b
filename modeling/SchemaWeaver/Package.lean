import SchemaWeaver.Gather
import SchemaWeaver.Source.Tree

/-!
Packages: modules with their documents, what is known about them, and modifications of documents.
-/

set_option autoImplicit false
set_option relaxedAutoImplicit false

namespace SchemaWeaver

open Source (Tree)

structure Document where
  id : Nat
  name : String
  tree : Tree
  deriving DecidableEq, Repr

inductive DocumentKind where
  | source
  | test
  deriving DecidableEq, Repr

/-- What tells the documents of a module apart. -/
structure DocumentKey where
  kind : DocumentKind
  id : Nat
  deriving DecidableEq, Repr

structure Module where
  name : String
  documents : List Document
  tests : List Document
  deriving DecidableEq, Repr

structure Package where
  modules : List Module
  deriving DecidableEq, Repr

structure Compilation where
  errors : Nat
  models : Keyed String Model

namespace Module

def keyedDocuments (m : Module) : Keyed DocumentKey Document :=
  (m.documents.map fun d => (⟨.source, d.id⟩, d)) ++ m.tests.map fun d => (⟨.test, d.id⟩, d)

def ofKind (m : Module) : DocumentKind → List Document
  | .source => m.documents
  | .test => m.tests

def document? (m : Module) (key : DocumentKey) : Option Document :=
  (m.ofKind key.kind).find? fun d => d.id = key.id

def replaceTree (id : Nat) (tree : Tree) : List Document → List Document
  | [] => []
  | d :: rest => if d.id = id then { d with tree } :: rest else d :: replaceTree id tree rest

/-- Replace the tree of the first document with a key. -/
def setTree (m : Module) (key : DocumentKey) (tree : Tree) : Module :=
  match key.kind with
  | .source => { m with documents := replaceTree key.id tree m.documents }
  | .test => { m with tests := replaceTree key.id tree m.tests }

end Module

structure ModifiedDocument where
  module : String
  key : DocumentKey
  tree : Tree
  changed : Bool
  deriving DecidableEq, Repr

/-- What the pass found out about a module: its schemas, or why it is left as it is. -/
structure ModuleReport where
  module : String
  schemas : Catalog
  skipped : Option SkipReason

structure Modification where
  skipped : Option SkipReason
  modules : List ModuleReport
  documents : List ModifiedDocument

namespace Modification

def empty : Modification := ⟨none, [], []⟩

def report? (m : Modification) (module : String) : Option ModuleReport :=
  m.modules.find? fun report => report.module = module

def document? (m : Modification) (module : String) (key : DocumentKey) : Option ModifiedDocument :=
  m.documents.find? fun d => d.module = module && d.key = key

def changedCount (m : Modification) : Nat :=
  m.documents.countP fun d => d.changed

end Modification

namespace Package

def module? (p : Package) (name : String) : Option Module :=
  p.modules.find? fun m => m.name = name

def setTree (name : String) (key : DocumentKey) (tree : Tree) : List Module → List Module
  | [] => []
  | m :: rest =>
      if m.name = name then m.setTree key tree :: rest else m :: setTree name key tree rest

/-- Put the modified documents in the place of the present ones. -/
def apply (p : Package) (modification : Modification) : Package :=
  ⟨modification.documents.foldl (fun modules d => setTree d.module d.key d.tree modules) p.modules⟩

end Package

end SchemaWeaver
