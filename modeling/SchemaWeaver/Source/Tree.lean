/-!
Source documents as trees: imports, then members. Type descriptors and everything that is not worked
on are kept as the text that was written.
-/

set_option autoImplicit false
set_option relaxedAutoImplicit false

namespace SchemaWeaver.Source

/-- An import: the organisation, the components of the module's name, and the name it is given. -/
structure Import where
  org : Option String
  path : List String
  asName : Option String
  deriving DecidableEq, Repr

inductive Name where
  | simple (name : String)
  | qualified (module name : String)
  deriving DecidableEq, Repr

/-- A literal. A number is kept as it is written. -/
inductive Literal where
  | string (value : String)
  | number (text : String)
  | boolean (value : Bool)
  | nil
  | null
  deriving DecidableEq, Repr

/-- A call of a remote method; `id` tells the calls of a module apart. -/
structure RemoteCall (ε : Type) where
  id : Nat
  receiver : ε
  method : String
  arguments : List ε
  deriving Repr

inductive Expr where
  | name (name : Name)
  | literal (literal : Literal)
  | mapping (fields : List (String × Expr))
  | list (items : List Expr)
  | remote (call : RemoteCall Expr)
  | call (name : Name) (arguments : List Expr)
  | check (inner : Expr)
  | verbatim (text : String)
  deriving Repr, Inhabited

namespace Expr

mutual

def same : Expr → Expr → Bool
  | .name a, .name b => a = b
  | .literal a, .literal b => a = b
  | .mapping as, .mapping bs => sameFields as bs
  | .list as, .list bs => sameList as bs
  | .remote ⟨i, r, m, as⟩, .remote ⟨j, s, n, bs⟩ =>
      i = j && same r s && m = n && sameList as bs
  | .call a as, .call b bs => a = b && sameList as bs
  | .check a, .check b => same a b
  | .verbatim a, .verbatim b => a = b
  | _, _ => false

def sameList : List Expr → List Expr → Bool
  | [], [] => true
  | a :: as, b :: bs => same a b && sameList as bs
  | _, _ => false

def sameFields : List (String × Expr) → List (String × Expr) → Bool
  | [], [] => true
  | (k, a) :: as, (l, b) :: bs => k = l && same a b && sameFields as bs
  | _, _ => false

end

mutual

theorem same_iff : (a b : Expr) → (same a b = true ↔ a = b)
  | .name _, b => by cases b <;> simp [same]
  | .literal _, b => by cases b <;> simp [same]
  | .mapping as, b => by cases b <;> simp [same, sameFields_iff as]
  | .list as, b => by cases b <;> simp [same, sameList_iff as]
  | .remote ⟨i, r, m, as⟩, b => by
      cases b with
      | remote call =>
          obtain ⟨j, s, n, bs⟩ := call
          simp [same, same_iff r, sameList_iff as, and_assoc]
      | _ => simp [same]
  | .call _ as, b => by cases b <;> simp [same, sameList_iff as]
  | .check a, b => by cases b <;> simp [same, same_iff a]
  | .verbatim _, b => by cases b <;> simp [same]

theorem sameList_iff : (as bs : List Expr) → (sameList as bs = true ↔ as = bs)
  | [], bs => by cases bs <;> simp [sameList]
  | a :: as, bs => by cases bs <;> simp [sameList, same_iff a, sameList_iff as]

theorem sameFields_iff : (as bs : List (String × Expr)) → (sameFields as bs = true ↔ as = bs)
  | [], bs => by cases bs <;> simp [sameFields]
  | (_, _) :: _, [] => by simp [sameFields]
  | (k, a) :: as, (l, b) :: bs => by
      simp [sameFields, same_iff a, sameFields_iff as]

end

instance : DecidableEq Expr := fun a b => decidable_of_iff _ (same_iff a b)

end Expr

deriving instance DecidableEq for RemoteCall

structure Mark where
  name : Name
  value : Option Expr
  deriving DecidableEq, Repr

structure Metadata where
  documentation : List String
  marks : List Mark
  deriving DecidableEq, Repr

/-- The definition of a type; its descriptor is text. -/
structure TypeDef where
  metadata : Option Metadata
  isPublic : Bool
  name : String
  descriptor : String
  deriving DecidableEq, Repr

structure Parameter where
  type : String
  name : String
  deriving DecidableEq, Repr

inductive Statement where
  | declare (type name : String) (init : Option Expr)
  | expr (value : Expr)
  | giveBack (value : Option Expr)
  | verbatim (text : String)
  deriving DecidableEq, Repr

structure FunctionDef where
  metadata : Option Metadata
  isPublic : Bool
  name : String
  parameters : List Parameter
  returnType : Option String
  body : List Statement
  deriving DecidableEq, Repr

structure VariableDef where
  metadata : Option Metadata
  isPublic : Bool
  isFinal : Bool
  type : String
  name : String
  init : Option Expr
  deriving DecidableEq, Repr

inductive Member where
  | typeDef (definition : TypeDef)
  | functionDef (definition : FunctionDef)
  | variableDef (definition : VariableDef)
  | verbatim (text : String)
  deriving DecidableEq, Repr

structure Tree where
  imports : List Import
  members : List Member
  deriving DecidableEq, Repr

def Mark.isNamed (mark : Mark) (module name : String) : Bool :=
  mark.name = .qualified module name

def TypeDef.marks (definition : TypeDef) : List Mark :=
  match definition.metadata with
  | none => []
  | some metadata => metadata.marks

def Member.typeDef? : Member → Option TypeDef
  | .typeDef definition => some definition
  | _ => none

def Tree.typeDefs (tree : Tree) : List TypeDef :=
  tree.members.filterMap Member.typeDef?

def Tree.typeDef? (tree : Tree) (name : String) : Option TypeDef :=
  tree.typeDefs.find? fun definition => definition.name = name

end SchemaWeaver.Source
