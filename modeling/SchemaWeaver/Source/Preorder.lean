import SchemaWeaver.Source.Tree

/-!
The nodes of a document in preorder: each node before what it contains, and contents from left to
right. A call of a remote method is met twice, as an expression and as a call.
-/

set_option autoImplicit false
set_option relaxedAutoImplicit false

namespace SchemaWeaver.Source

inductive Node where
  | tree (tree : Tree)
  | importing (i : Import)
  | member (member : Member)
  | typeDef (definition : TypeDef)
  | functionDef (definition : FunctionDef)
  | variableDef (definition : VariableDef)
  | metadata (metadata : Metadata)
  | mark (mark : Mark)
  | statement (statement : Statement)
  | expr (e : Expr)
  | call (call : RemoteCall Expr)
  deriving DecidableEq, Repr

namespace Expr

mutual

def nodes : Expr → List Node
  | .mapping fields => .expr (.mapping fields) :: fieldNodes fields
  | .list items => .expr (.list items) :: itemNodes items
  | .remote ⟨id, receiver, method, arguments⟩ =>
      .expr (.remote ⟨id, receiver, method, arguments⟩) ::
        .call ⟨id, receiver, method, arguments⟩ :: (nodes receiver ++ itemNodes arguments)
  | .call callee arguments => .expr (.call callee arguments) :: itemNodes arguments
  | .check inner => .expr (.check inner) :: nodes inner
  | .name n => [.expr (.name n)]
  | .literal l => [.expr (.literal l)]
  | .verbatim s => [.expr (.verbatim s)]

def itemNodes : List Expr → List Node
  | [] => []
  | e :: rest => nodes e ++ itemNodes rest

def fieldNodes : List (String × Expr) → List Node
  | [] => []
  | (_, e) :: rest => nodes e ++ fieldNodes rest

end

end Expr

def optionalNodes : Option Expr → List Node
  | none => []
  | some e => e.nodes

def Mark.nodes (mark : Mark) : List Node :=
  .mark mark :: optionalNodes mark.value

def metadataNodes : Option Metadata → List Node
  | none => []
  | some metadata => .metadata metadata :: metadata.marks.flatMap Mark.nodes

def Statement.nodes (s : Statement) : List Node :=
  .statement s ::
    match s with
    | .declare _ _ init => optionalNodes init
    | .expr e => e.nodes
    | .giveBack e => optionalNodes e
    | .verbatim _ => []

def Member.nodes (m : Member) : List Node :=
  .member m ::
    match m with
    | .typeDef d => .typeDef d :: metadataNodes d.metadata
    | .functionDef d =>
        .functionDef d :: (metadataNodes d.metadata ++ d.body.flatMap Statement.nodes)
    | .variableDef d => .variableDef d :: (metadataNodes d.metadata ++ optionalNodes d.init)
    | .verbatim _ => []

def Tree.nodes (tree : Tree) : List Node :=
  .tree tree :: (tree.imports.map Node.importing ++ tree.members.flatMap Member.nodes)

def Node.call? : Node → Option (RemoteCall Expr)
  | .call c => some c
  | _ => none

/-- The calls of remote methods in a document, each before those in its receiver, and those before
the ones in its arguments. -/
def Tree.calls (tree : Tree) : List (RemoteCall Expr) :=
  tree.nodes.filterMap Node.call?

end SchemaWeaver.Source
