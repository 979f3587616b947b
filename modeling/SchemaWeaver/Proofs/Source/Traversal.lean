import SchemaWeaver.Source.Preorder
import Mathlib.Data.List.Basic

/-!
Visitors. A visitor is told of every node and decides when to go on below it; one that acts and then
goes on meets the nodes of a document in preorder. A call is met as an expression and, right after
that, as a call, so a visitor that looks at expressions and one that looks at calls come to the same
calls in the same order.
-/

set_option autoImplicit false
set_option relaxedAutoImplicit false

namespace SchemaWeaver.Source

/-- What is done at a node, given how to go on below it. -/
abbrev Visitor (σ : Type) := Node → (σ → σ) → σ → σ

namespace Visitor

variable {σ : Type} (v : Visitor σ)

def each {α : Type} (visit : α → σ → σ) (items : List α) (s : σ) : σ :=
  items.foldl (fun s item => visit item s) s

mutual

/-- Visit an expression. A remote call is visited as an expression and, below that, as a call. -/
def expr : Expr → σ → σ
  | .mapping fields => v (.expr (.mapping fields)) (exprsOfFields fields)
  | .list items => v (.expr (.list items)) (exprs items)
  | .remote ⟨id, receiver, method, arguments⟩ =>
      v (.expr (.remote ⟨id, receiver, method, arguments⟩))
        (v (.call ⟨id, receiver, method, arguments⟩) fun s => exprs arguments (expr receiver s))
  | .call callee arguments => v (.expr (.call callee arguments)) (exprs arguments)
  | .check inner => v (.expr (.check inner)) (expr inner)
  | .name n => v (.expr (.name n)) id
  | .literal l => v (.expr (.literal l)) id
  | .verbatim text => v (.expr (.verbatim text)) id

def exprs : List Expr → σ → σ
  | [], s => s
  | e :: rest, s => exprs rest (expr e s)

def exprsOfFields : List (String × Expr) → σ → σ
  | [], s => s
  | (_, e) :: rest, s => exprsOfFields rest (expr e s)

end

def optional : Option Expr → σ → σ
  | none => id
  | some e => v.expr e

def mark (mark : Mark) : σ → σ :=
  v (.mark mark) (v.optional mark.value)

def metadata : Option Metadata → σ → σ
  | none => id
  | some metadata => v (.metadata metadata) (each v.mark metadata.marks)

def statement (s : Statement) : σ → σ :=
  v (.statement s) <|
    match s with
    | .declare _ _ init => v.optional init
    | .expr e => v.expr e
    | .giveBack e => v.optional e
    | .verbatim _ => id

def member (m : Member) : σ → σ :=
  v (.member m) <|
    match m with
    | .typeDef d => v (.typeDef d) (v.metadata d.metadata)
    | .functionDef d =>
        v (.functionDef d) fun s => each v.statement d.body (v.metadata d.metadata s)
    | .variableDef d => v (.variableDef d) fun s => v.optional d.init (v.metadata d.metadata s)
    | .verbatim _ => id

def tree (tree : Tree) : σ → σ :=
  v (.tree tree) fun s =>
    each v.member tree.members (each (fun i => v (.importing i) id) tree.imports s)

/-- The visitor that acts on each node and then goes on below it. -/
def acting (act : Node → σ → σ) : Visitor σ :=
  fun node walk s => walk (act node s)

/-- The visitor that collects the calls that it meets as calls. -/
def collecting : Visitor (List (RemoteCall Expr)) :=
  acting fun
    | .call call, calls => calls ++ [call]
    | _, calls => calls

/-- The visitor that collects what an inspection of calls yields, for those that it meets as
expressions. -/
def scanning {α : Type} (inspect : RemoteCall Expr → List α) : Visitor (List α) :=
  acting fun
    | .expr (.remote call), found => found ++ inspect call
    | _, found => found

variable (act : Node → σ → σ)

def actOn (nodes : List Node) (s : σ) : σ :=
  nodes.foldl (fun s node => act node s) s

theorem actOn_cons (node : Node) (nodes : List Node) (s : σ) :
    actOn act (node :: nodes) s = actOn act nodes (act node s) :=
  rfl

theorem actOn_append (nodes others : List Node) (s : σ) :
    actOn act (nodes ++ others) s = actOn act others (actOn act nodes s) :=
  List.foldl_append

theorem each_eq_actOn {α : Type} {visit : α → σ → σ} {nodes : α → List Node}
    (step : ∀ a s, visit a s = actOn act (nodes a) s) (items : List α) (s : σ) :
    each visit items s = actOn act (items.flatMap nodes) s := by
  induction items generalizing s with
  | nil => rfl
  | cons a items ih =>
      rw [List.flatMap_cons, actOn_append, ← step, ← ih]
      rfl

mutual

/-- Acting and going on below each node comes to the nodes in preorder. -/
theorem expr_acting : (e : Expr) → (s : σ) → (acting act).expr e s = actOn act e.nodes s
  | .mapping fields, s => by
      rw [expr, acting, exprsOfFields_acting fields]
      rfl
  | .list items, s => by
      rw [expr, acting, exprs_acting items]
      rfl
  | .remote ⟨id, receiver, method, arguments⟩, s => by
      rw [expr, Expr.nodes, acting, actOn_cons, acting, actOn_cons, actOn_append,
        expr_acting receiver, exprs_acting arguments]
  | .call callee arguments, s => by
      rw [expr, acting, exprs_acting arguments]
      rfl
  | .check inner, s => by
      rw [expr, acting, expr_acting inner]
      rfl
  | .name _, _ => rfl
  | .literal _, _ => rfl
  | .verbatim _, _ => rfl

theorem exprs_acting : (items : List Expr) → (s : σ) →
    (acting act).exprs items s = actOn act (Expr.itemNodes items) s
  | [], _ => rfl
  | e :: rest, s => by
      rw [exprs, Expr.itemNodes, actOn_append, expr_acting e, exprs_acting rest]

theorem exprsOfFields_acting : (fields : List (String × Expr)) → (s : σ) →
    (acting act).exprsOfFields fields s = actOn act (Expr.fieldNodes fields) s
  | [], _ => rfl
  | (_, e) :: rest, s => by
      rw [exprsOfFields, Expr.fieldNodes, actOn_append, expr_acting e, exprsOfFields_acting rest]

end

theorem optional_acting (e : Option Expr) (s : σ) :
    (acting act).optional e s = actOn act (optionalNodes e) s := by
  cases e with
  | none => rfl
  | some e => exact expr_acting act e s

theorem mark_acting (m : Mark) (s : σ) : (acting act).mark m s = actOn act m.nodes s :=
  optional_acting act m.value _

theorem metadata_acting (m : Option Metadata) (s : σ) :
    (acting act).metadata m s = actOn act (metadataNodes m) s := by
  cases m with
  | none => rfl
  | some m => exact each_eq_actOn act (mark_acting act) m.marks _

theorem statement_acting (st : Statement) (s : σ) :
    (acting act).statement st s = actOn act st.nodes s := by
  cases st with
  | declare _ _ init => exact optional_acting act init _
  | expr e => exact expr_acting act e _
  | giveBack e => exact optional_acting act e _
  | verbatim _ => rfl

theorem member_acting (m : Member) (s : σ) : (acting act).member m s = actOn act m.nodes s := by
  cases m with
  | typeDef d => exact metadata_acting act d.metadata _
  | functionDef d =>
      rw [Member.nodes, actOn_cons, actOn_cons, actOn_append, ← metadata_acting]
      exact each_eq_actOn act (statement_acting act) d.body _
  | variableDef d =>
      rw [Member.nodes, actOn_cons, actOn_cons, actOn_append, ← metadata_acting]
      exact optional_acting act d.init _
  | verbatim _ => rfl

theorem tree_acting (t : Tree) (s : σ) : (acting act).tree t s = actOn act t.nodes s := by
  have imports (s : σ) : each (fun i => acting act (.importing i) id) t.imports s =
      actOn act (t.imports.map Node.importing) s := by
    rw [actOn, List.foldl_map]
    rfl
  rw [Tree.nodes, actOn_cons, actOn_append, ← imports]
  exact each_eq_actOn act (member_acting act) t.members _

end Visitor

/-! ## The calls that are met -/

def Expr.call? : Expr → Option (RemoteCall Expr)
  | .remote c => some c
  | _ => none

def Node.remote? : Node → Option (RemoteCall Expr)
  | .expr e => e.call?
  | _ => none

mutual

theorem Expr.filterMap_remote? : (e : Expr) →
    e.nodes.filterMap Node.remote? = e.nodes.filterMap Node.call?
  | .mapping fields => fieldNodes_filterMap_remote? fields
  | .list items => itemNodes_filterMap_remote? items
  | .remote ⟨id, receiver, method, arguments⟩ => by
      have inner : (receiver.nodes ++ itemNodes arguments).filterMap Node.remote? =
          (receiver.nodes ++ itemNodes arguments).filterMap Node.call? := by
        rw [List.filterMap_append, List.filterMap_append, filterMap_remote? receiver,
          itemNodes_filterMap_remote? arguments]
      exact congrArg (List.cons ⟨id, receiver, method, arguments⟩) inner
  | .call _ arguments => itemNodes_filterMap_remote? arguments
  | .check inner => filterMap_remote? inner
  | .name _ => rfl
  | .literal _ => rfl
  | .verbatim _ => rfl

theorem Expr.itemNodes_filterMap_remote? : (items : List Expr) →
    (itemNodes items).filterMap Node.remote? = (itemNodes items).filterMap Node.call?
  | [] => rfl
  | e :: rest => by
      rw [itemNodes, List.filterMap_append, List.filterMap_append, filterMap_remote? e,
        itemNodes_filterMap_remote? rest]

theorem Expr.fieldNodes_filterMap_remote? : (fields : List (String × Expr)) →
    (fieldNodes fields).filterMap Node.remote? = (fieldNodes fields).filterMap Node.call?
  | [] => rfl
  | (_, e) :: rest => by
      rw [fieldNodes, List.filterMap_append, List.filterMap_append, filterMap_remote? e,
        fieldNodes_filterMap_remote? rest]

end

def markValues : Option Metadata → List Expr
  | none => []
  | some metadata => metadata.marks.filterMap Mark.value

def Statement.value? : Statement → Option Expr
  | .declare _ _ init => init
  | .expr e => some e
  | .giveBack e => e
  | .verbatim _ => none

/-- The expressions that stand directly in a member: the values of its marks, then its
statements or its initial value. -/
def Member.values : Member → List Expr
  | .typeDef d => markValues d.metadata
  | .functionDef d => markValues d.metadata ++ d.body.filterMap Statement.value?
  | .variableDef d => markValues d.metadata ++ d.init.toList
  | .verbatim _ => []

def Tree.values (tree : Tree) : List Expr :=
  tree.members.flatMap Member.values

section Reading

variable {β : Type} (read : Node → Option β)

def Expr.reading (e : Expr) : List β := e.nodes.filterMap read

theorem optionalNodes_reading (e : Option Expr) :
    (optionalNodes e).filterMap read = e.toList.flatMap (Expr.reading read) := by
  cases e with
  | none => rfl
  | some e => simp [optionalNodes, Expr.reading]

theorem flatMap_reading {α : Type} {nodes : α → List Node} {value : α → Option Expr}
    (single : ∀ a, (nodes a).filterMap read = (value a).toList.flatMap (Expr.reading read))
    (items : List α) :
    (items.flatMap nodes).filterMap read =
      (items.filterMap value).flatMap (Expr.reading read) := by
  induction items with
  | nil => rfl
  | cons a items ih =>
      rw [List.flatMap_cons, List.filterMap_append, ih, single]
      cases found : value a with
      | none => simp [found]
      | some e => simp [found]

variable {read} (silent : ∀ node, (∀ e, node ≠ .expr e) → (∀ c, node ≠ .call c) → read node = none)

include silent

theorem metadataNodes_reading (m : Option Metadata) :
    (metadataNodes m).filterMap read = (markValues m).flatMap (Expr.reading read) := by
  cases m with
  | none => rfl
  | some m =>
      rw [metadataNodes, List.filterMap_cons_none (silent _ (by simp) (by simp)), markValues]
      refine flatMap_reading read (fun mark => ?_) m.marks
      rw [Mark.nodes, List.filterMap_cons_none (silent _ (by simp) (by simp)),
        optionalNodes_reading]

theorem statement_reading (s : Statement) :
    s.nodes.filterMap read = s.value?.toList.flatMap (Expr.reading read) := by
  unfold Statement.nodes
  rw [List.filterMap_cons_none (silent _ (by simp) (by simp))]
  cases s with
  | declare _ _ init => exact optionalNodes_reading read init
  | expr e => exact optionalNodes_reading read (some e)
  | giveBack e => exact optionalNodes_reading read e
  | verbatim _ => rfl

theorem member_reading (m : Member) :
    m.nodes.filterMap read = m.values.flatMap (Expr.reading read) := by
  unfold Member.nodes
  rw [List.filterMap_cons_none (silent _ (by simp) (by simp))]
  cases m with
  | typeDef d =>
      rw [List.filterMap_cons_none (silent _ (by simp) (by simp))]
      exact metadataNodes_reading silent d.metadata
  | functionDef d =>
      rw [List.filterMap_cons_none (silent _ (by simp) (by simp)), List.filterMap_append,
        metadataNodes_reading silent, flatMap_reading read (statement_reading silent),
        ← List.flatMap_append]
      rfl
  | variableDef d =>
      rw [List.filterMap_cons_none (silent _ (by simp) (by simp)), List.filterMap_append,
        metadataNodes_reading silent, optionalNodes_reading, ← List.flatMap_append]
      rfl
  | verbatim _ => rfl

theorem Tree.reading_eq (tree : Tree) :
    tree.nodes.filterMap read = tree.values.flatMap (Expr.reading read) := by
  have imports : (tree.imports.map Node.importing).filterMap read = [] := by
    rw [List.filterMap_eq_nil_iff]
    intro node member
    obtain ⟨i, -, rfl⟩ := List.mem_map.mp member
    exact silent _ (by simp) (by simp)
  rw [nodes, List.filterMap_cons_none (silent _ (by simp) (by simp)), List.filterMap_append,
    imports, List.nil_append, List.filterMap_flatMap, values, List.flatMap_assoc]
  exact List.flatMap_congr fun member _ => member_reading silent member

end Reading

def Expr.calls (e : Expr) : List (RemoteCall Expr) := e.nodes.filterMap Node.call?

theorem Tree.calls_eq_values (tree : Tree) : tree.calls = tree.values.flatMap Expr.calls := by
  refine tree.reading_eq fun node _ noCall => ?_
  cases node with
  | call c => exact absurd rfl (noCall c)
  | _ => rfl

/-- Calls are met as expressions in the order in which they are met as calls. -/
theorem Tree.filterMap_remote? (tree : Tree) :
    tree.nodes.filterMap Node.remote? = tree.calls := by
  have met : tree.nodes.filterMap Node.remote? =
      tree.values.flatMap (Expr.reading Node.remote?) := by
    refine tree.reading_eq fun node noExpr _ => ?_
    cases node with
    | expr e => exact absurd rfl (noExpr e)
    | _ => rfl
  rw [met, tree.calls_eq_values]
  exact List.flatMap_congr fun e _ => e.filterMap_remote?

namespace Visitor

theorem actOn_of_appends {α : Type} {act : Node → List α → List α} {out : Node → List α}
    (appends : ∀ node found, act node found = found ++ out node) (nodes : List Node)
    (found : List α) : actOn act nodes found = found ++ nodes.flatMap out := by
  induction nodes generalizing found with
  | nil => exact (List.append_nil found).symm
  | cons node nodes ih =>
      rw [actOn_cons, ih, appends, List.flatMap_cons, List.append_assoc]

theorem tree_collecting (t : Tree) : collecting.tree t [] = t.calls := by
  have appends : ∀ (node : Node) (calls : List (RemoteCall Expr)),
      (match node, calls with
        | .call call, calls => calls ++ [call]
        | _, calls => calls) = calls ++ node.call?.toList := by
    intro node calls
    cases node with
    | call c => rfl
    | _ => exact (List.append_nil calls).symm
  rw [collecting, tree_acting, actOn_of_appends appends, List.nil_append, Tree.calls,
    List.filterMap_eq_flatMap_toList]

theorem tree_scanning {α : Type} (inspect : RemoteCall Expr → List α) (t : Tree) :
    (scanning inspect).tree t [] = t.calls.flatMap inspect := by
  have appends : ∀ (node : Node) (found : List α),
      (match node, found with
        | .expr (.remote call), found => found ++ inspect call
        | _, found => found) = found ++ node.remote?.toList.flatMap inspect := by
    intro node found
    cases node with
    | expr e => cases e <;> simp [Node.remote?, Expr.call?]
    | _ => exact (List.append_nil found).symm
  rw [scanning, tree_acting, actOn_of_appends appends, List.nil_append, ← t.filterMap_remote?,
    List.filterMap_eq_flatMap_toList, List.flatMap_assoc]

end Visitor

end SchemaWeaver.Source
