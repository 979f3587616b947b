import SchemaWeaver.Source.Replace

/-!
Modifiers. A modifier is asked about every node of a document, metadata apart, and is shown what the
node is rebuilt to from what has become of its parts. One that always takes the rebuilt node
overrides nothing; one that decides on expressions only is a replacement.
-/

set_option autoImplicit false
set_option relaxedAutoImplicit false

namespace SchemaWeaver.Source

/-- What becomes of the nodes of each kind, given the node and what it is rebuilt to. Imports and
type definitions are not taken apart. -/
structure Modifier where
  tree : Tree → Tree → Tree := fun _ rebuilt => rebuilt
  importing : Import → Import := id
  member : Member → Member → Member := fun _ rebuilt => rebuilt
  typeDef : TypeDef → TypeDef := id
  functionDef : FunctionDef → FunctionDef → FunctionDef := fun _ rebuilt => rebuilt
  variableDef : VariableDef → VariableDef → VariableDef := fun _ rebuilt => rebuilt
  statement : Statement → Statement → Statement := fun _ rebuilt => rebuilt
  expr : Expr → Expr → Expr := fun _ rebuilt => rebuilt

namespace Modifier

variable (m : Modifier)

mutual

def modifyExpr : Expr → Expr
  | .mapping fields => m.expr (.mapping fields) (.mapping (modifyFields fields))
  | .list items => m.expr (.list items) (.list (modifyItems items))
  | .remote ⟨id, receiver, method, arguments⟩ =>
      m.expr (.remote ⟨id, receiver, method, arguments⟩)
        (.remote ⟨id, modifyExpr receiver, method, modifyItems arguments⟩)
  | .call callee arguments => m.expr (.call callee arguments) (.call callee (modifyItems arguments))
  | .check inner => m.expr (.check inner) (.check (modifyExpr inner))
  | .name n => m.expr (.name n) (.name n)
  | .literal l => m.expr (.literal l) (.literal l)
  | .verbatim text => m.expr (.verbatim text) (.verbatim text)

def modifyItems : List Expr → List Expr
  | [] => []
  | e :: rest => modifyExpr e :: modifyItems rest

def modifyFields : List (String × Expr) → List (String × Expr)
  | [] => []
  | (key, e) :: rest => (key, modifyExpr e) :: modifyFields rest

end

def modifyStatement (s : Statement) : Statement :=
  m.statement s <|
    match s with
    | .declare type name init => .declare type name (init.map m.modifyExpr)
    | .expr e => .expr (m.modifyExpr e)
    | .giveBack e => .giveBack (e.map m.modifyExpr)
    | .verbatim text => .verbatim text

def modifyMember (member : Member) : Member :=
  m.member member <|
    match member with
    | .typeDef d => .typeDef (m.typeDef d)
    | .functionDef d =>
        .functionDef (m.functionDef d { d with body := d.body.map m.modifyStatement })
    | .variableDef d => .variableDef (m.variableDef d { d with init := d.init.map m.modifyExpr })
    | .verbatim text => .verbatim text

def apply (tree : Tree) : Tree :=
  m.tree tree ⟨tree.imports.map m.importing, tree.members.map m.modifyMember⟩

def plain : Modifier := {}

/-- The modifier that replaces what a change applies to. -/
def replacing (change : Expr → Option Expr) : Modifier where
  expr e rebuilt := (change e).getD rebuilt

def renamer (old new : String) : Modifier where
  expr e rebuilt := if e = .name (.simple old) then .name (.simple new) else rebuilt

variable (change : Expr → Option Expr)

mutual

theorem modifyExpr_replacing : (e : Expr) → (replacing change).modifyExpr e = e.replace change
  | .mapping fields => by
      rw [modifyExpr, Expr.replace, modifyFields_replacing fields]
      rfl
  | .list items => by
      rw [modifyExpr, Expr.replace, modifyItems_replacing items]
      rfl
  | .remote ⟨id, receiver, method, arguments⟩ => by
      rw [modifyExpr, Expr.replace, modifyExpr_replacing receiver, modifyItems_replacing arguments]
      rfl
  | .call callee arguments => by
      rw [modifyExpr, Expr.replace, modifyItems_replacing arguments]
      rfl
  | .check inner => by
      rw [modifyExpr, Expr.replace, modifyExpr_replacing inner]
      rfl
  | .name _ => rfl
  | .literal _ => rfl
  | .verbatim _ => rfl

theorem modifyItems_replacing : (items : List Expr) →
    (replacing change).modifyItems items = Expr.replaceItems change items
  | [] => rfl
  | e :: rest => by
      rw [modifyItems, Expr.replaceItems, modifyExpr_replacing e, modifyItems_replacing rest]

theorem modifyFields_replacing : (fields : List (String × Expr)) →
    (replacing change).modifyFields fields = Expr.replaceFields change fields
  | [] => rfl
  | (_, e) :: rest => by
      rw [modifyFields, Expr.replaceFields, modifyExpr_replacing e, modifyFields_replacing rest]

end

theorem modifyStatement_replacing (s : Statement) :
    (replacing change).modifyStatement s = s.replace change := by
  have exprs : (replacing change).modifyExpr = Expr.replace change :=
    funext (modifyExpr_replacing change)
  cases s with
  | declare type name init =>
      rw [modifyStatement, exprs]
      rfl
  | expr e => exact congrArg Statement.expr (modifyExpr_replacing change e)
  | giveBack e =>
      rw [modifyStatement, exprs]
      rfl
  | verbatim _ => rfl

theorem modifyMember_replacing (member : Member) :
    (replacing change).modifyMember member = member.replace change := by
  cases member with
  | typeDef _ => rfl
  | functionDef d =>
      rw [modifyMember, funext (modifyStatement_replacing change)]
      rfl
  | variableDef d =>
      rw [modifyMember, funext (modifyExpr_replacing change)]
      rfl
  | verbatim _ => rfl

theorem apply_replacing (tree : Tree) : (replacing change).apply tree = tree.replace change := by
  rw [apply, funext (modifyMember_replacing change)]
  exact congrArg (Tree.mk · _) (List.map_id tree.imports)

theorem apply_plain (tree : Tree) : plain.apply tree = tree.replace fun _ => none :=
  apply_replacing (fun _ => none) tree

theorem renamer_eq_replacing (old new : String) :
    renamer old new = replacing (nameChange old new) := by
  have same : (fun e rebuilt : Expr =>
      if e = .name (.simple old) then .name (.simple new) else rebuilt) =
        fun e rebuilt => (nameChange old new e).getD rebuilt := by
    funext e rebuilt
    cases e with
    | name n =>
        cases n with
        | simple name => by_cases here : name = old <;> simp [nameChange, here]
        | qualified _ _ => simp [nameChange]
    | _ => simp [nameChange]
  rw [renamer, replacing, same]

theorem apply_renamer (old new : String) (tree : Tree) :
    (renamer old new).apply tree = tree.rename old new := by
  rw [renamer_eq_replacing, apply_replacing, Tree.rename]

end Modifier

end SchemaWeaver.Source
