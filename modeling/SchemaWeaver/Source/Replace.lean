import SchemaWeaver.Source.Tree

/-!
Replacing expressions in a document. A replacement is tried on each expression of a function body or
of the first value of a variable, from the outside in; what it leaves alone is rebuilt from its
parts. Imports, metadata and type definitions stay as they are.
-/

set_option autoImplicit false
set_option relaxedAutoImplicit false

namespace SchemaWeaver.Source

namespace Expr

mutual

/-- Replace the outermost expressions that `change` applies to. -/
def replace (change : Expr → Option Expr) : Expr → Expr
  | .mapping fields =>
      (change (.mapping fields)).getD (.mapping (replaceFields change fields))
  | .list items => (change (.list items)).getD (.list (replaceItems change items))
  | .remote ⟨id, receiver, method, arguments⟩ =>
      (change (.remote ⟨id, receiver, method, arguments⟩)).getD
        (.remote ⟨id, replace change receiver, method, replaceItems change arguments⟩)
  | .call callee arguments =>
      (change (.call callee arguments)).getD (.call callee (replaceItems change arguments))
  | .check inner => (change (.check inner)).getD (.check (replace change inner))
  | .name n => (change (.name n)).getD (.name n)
  | .literal l => (change (.literal l)).getD (.literal l)
  | .verbatim s => (change (.verbatim s)).getD (.verbatim s)

def replaceItems (change : Expr → Option Expr) : List Expr → List Expr
  | [] => []
  | e :: rest => replace change e :: replaceItems change rest

def replaceFields (change : Expr → Option Expr) : List (String × Expr) → List (String × Expr)
  | [] => []
  | (key, e) :: rest => (key, replace change e) :: replaceFields change rest

end

end Expr

def Statement.replace (change : Expr → Option Expr) : Statement → Statement
  | .declare type name init => .declare type name (init.map (Expr.replace change))
  | .expr e => .expr (e.replace change)
  | .giveBack e => .giveBack (e.map (Expr.replace change))
  | .verbatim s => .verbatim s

def Member.replace (change : Expr → Option Expr) : Member → Member
  | .typeDef d => .typeDef d
  | .functionDef d => .functionDef { d with body := d.body.map (Statement.replace change) }
  | .variableDef d => .variableDef { d with init := d.init.map (Expr.replace change) }
  | .verbatim s => .verbatim s

def Tree.replace (change : Expr → Option Expr) (tree : Tree) : Tree :=
  { tree with members := tree.members.map (Member.replace change) }

def nameChange (old new : String) : Expr → Option Expr
  | .name (.simple name) => if name = old then some (.name (.simple new)) else none
  | _ => none

/-- Replace a simple name by another wherever it stands as an expression. -/
def Tree.rename (old new : String) (tree : Tree) : Tree :=
  tree.replace (nameChange old new)

end SchemaWeaver.Source
