import SchemaWeaver.Proofs.Source.Modifier
import SchemaWeaver.Proofs.Source.Places

/-!
Renaming. A document is its outline, which leaves out the expressions of function bodies and first
values, and the heads of these expressions and of all their parts, each at its place. Renaming keeps
the outline and the places, and of the heads it changes only the simple name that it is about.
Everything else that is said of a renaming follows.
-/

set_option autoImplicit false
set_option relaxedAutoImplicit false

namespace SchemaWeaver.Source

/-! ## Expressions by the heads at their places -/

/-- What an expression is, its parts left out. -/
inductive Head where
  | name (name : Name)
  | literal (literal : Literal)
  | mapping (keys : List String)
  | list
  | remote (id : Nat) (method : String)
  | call (name : Name)
  | check
  | verbatim (text : String)

/-- A simple name replaced by another; no other head changes. -/
def Head.rename (old new : String) : Head → Head
  | .name (.simple n) => .name (.simple (if n = old then new else n))
  | h => h

namespace Expr

def head : Expr → Head
  | .name n => .name n
  | .literal l => .literal l
  | .mapping fields => .mapping (fields.map Prod.fst)
  | .list _ => .list
  | .remote c => .remote c.id c.method
  | .call callee _ => .call callee
  | .check _ => .check
  | .verbatim text => .verbatim text

def headAt? (e : Expr) (place : List Nat) : Option Head :=
  (e.at? place).map head

theorem headAt?_nil (e : Expr) : e.headAt? [] = some e.head :=
  rfl

theorem headAt?_cons (e : Expr) (position : Nat) (place : List Nat) :
    e.headAt? (position :: place) = e.children[position]?.bind (headAt? · place) := by
  rw [headAt?, at?, Option.map_bind]
  rfl

theorem eq_of_head_children {e f : Expr} (heads : e.head = f.head)
    (children : e.children = f.children) : e = f := by
  cases e with
  | mapping fields =>
      cases f with
      | mapping others =>
          have keys : fields.map Prod.fst = others.map Prod.fst := by simpa [head] using heads
          have values : fields.map Prod.snd = others.map Prod.snd := children
          rw [List.zip_of_prod keys values, ← List.zip_of_prod rfl rfl]
      | _ => cases heads
  | remote c =>
      cases f with
      | remote d =>
          obtain ⟨id, receiver, method, arguments⟩ := c
          obtain ⟨id', receiver', method', arguments'⟩ := d
          simp_all [head, Expr.children]
      | _ => cases heads
  | _ => cases f <;> simp_all [head, Expr.children]

/-- Lists of expressions agree if the heads at all places do, and if heads tell the expressions of
one of them apart from others. -/
theorem list_eq_of_heads {es fs : List Expr}
    (heads : ∀ (position : Nat) (place : List Nat),
      es[position]?.bind (headAt? · place) = fs[position]?.bind (headAt? · place))
    (each : ∀ e ∈ es, ∀ f : Expr, (∀ place, e.headAt? place = f.headAt? place) → e = f) :
    es = fs := by
  refine List.ext_getElem? fun position => ?_
  -- A position that only one of the lists has shows at the place where the path ends at once.
  have here := heads position
  cases first : es[position]? with
  | none =>
      cases second : fs[position]? with
      | none => rfl
      | some f => simpa [first, second, headAt?_nil] using here []
  | some e =>
      cases second : fs[position]? with
      | none => simpa [first, second, headAt?_nil] using here []
      | some f =>
          rw [first, second] at here
          rw [each e (List.mem_of_getElem? first) f here]

theorem eq_of_heads (e f : Expr) (heads : ∀ place, e.headAt? place = f.headAt? place) : e = f := by
  refine eq_of_head_children (Option.some.inj (heads [])) ?_
  refine list_eq_of_heads (fun position place => ?_) fun child _member => eq_of_heads child
  rw [← headAt?_cons, ← headAt?_cons, heads]
termination_by sizeOf e
decreasing_by exact sizeOf_lt_of_mem_children _member

/-! ## Replacing leaves -/

theorem replaceItems_eq_map (change : Expr → Option Expr) (items : List Expr) :
    replaceItems change items = items.map (replace change) := by
  induction items with
  | nil => rfl
  | cons e rest ih => rw [replaceItems, ih, List.map_cons]

theorem replaceFields_eq_map (change : Expr → Option Expr) (fields : List (String × Expr)) :
    replaceFields change fields = fields.map fun field => (field.1, field.2.replace change) := by
  induction fields with
  | nil => rfl
  | cons field rest ih => rw [replaceFields, ih, List.map_cons]

section Replace

variable {change : Expr → Option Expr} {e : Expr}

theorem replace_of_some {f : Expr} (applies : change e = some f) : e.replace change = f := by
  cases e <;> rw [replace, applies, Option.getD_some]

theorem head_replace_of_none (declines : change e = none) : (e.replace change).head = e.head := by
  cases e with
  | mapping fields =>
      rw [replace, declines, Option.getD_none, head, head, replaceFields_eq_map, List.map_map]
      rfl
  | name _ | literal _ | verbatim _ => rw [replace, declines, Option.getD_none]
  | list _ | remote _ | call _ _ | check _ =>
      rw [replace, declines, Option.getD_none]
      rfl

theorem children_replace_of_none (declines : change e = none) :
    (e.replace change).children = e.children.map (replace change) := by
  cases e with
  | mapping fields =>
      rw [replace, declines, Option.getD_none, children, children, replaceFields_eq_map,
        List.map_map, List.map_map]
      rfl
  | list items =>
      rw [replace, declines, Option.getD_none]
      exact replaceItems_eq_map change items
  | remote c =>
      rw [replace, declines, Option.getD_none]
      exact congrArg (List.cons _) (replaceItems_eq_map change c.arguments)
  | call _ arguments =>
      rw [replace, declines, Option.getD_none]
      exact replaceItems_eq_map change arguments
  | check _ | name _ | literal _ | verbatim _ =>
      rw [replace, declines, Option.getD_none]
      rfl

/-- A change of expressions without parts to others without parts. -/
def IsLeafChange (change : Expr → Option Expr) : Prop :=
  ∀ e f, change e = some f → e.children = [] ∧ f.children = []

theorem headAt?_replace (leafChange : IsLeafChange change) (e : Expr) (place : List Nat) :
    (e.replace change).headAt? place =
      (e.at? place).map fun part => ((change part).getD part).head := by
  induction place generalizing e with
  | nil =>
      rw [headAt?_nil, at?, Option.map_some]
      cases found : change e with
      | none => rw [head_replace_of_none found, Option.getD_none]
      | some f => rw [replace_of_some found, Option.getD_some]
  | cons position place ih =>
      have children : (e.replace change).children = e.children.map (replace change) := by
        cases found : change e with
        | none => exact children_replace_of_none found
        | some f =>
            obtain ⟨before, after⟩ := leafChange e f found
            rw [replace_of_some found, before, after, List.map_nil]
      rw [headAt?_cons, children, List.getElem?_map, Option.bind_map, at?, Option.map_bind]
      exact Option.bind_congr fun child _ => ih child

end Replace

end Expr

/-! ## Documents by outline and code -/

def Expr.hole : Expr := .verbatim ""

def Statement.outline : Statement → Statement
  | .declare type name init => .declare type name (init.map fun _ => .hole)
  | .expr _ => .expr .hole
  | .giveBack e => .giveBack (e.map fun _ => .hole)
  | .verbatim text => .verbatim text

def Member.outline : Member → Member
  | .typeDef d => .typeDef d
  | .functionDef d => .functionDef { d with body := d.body.map Statement.outline }
  | .variableDef d => .variableDef { d with init := d.init.map fun _ => .hole }
  | .verbatim text => .verbatim text

/-- A document without the expressions of function bodies and first values: imports, type
definitions, metadata, declared names and types, and verbatim text stay. -/
def Tree.outline (tree : Tree) : Tree :=
  { tree with members := tree.members.map Member.outline }

def Statement.code (s : Statement) : List Expr :=
  s.value?.toList

/-- The expressions that stand directly in the body or the first value of a member. -/
def Member.code : Member → List Expr
  | .typeDef _ => []
  | .functionDef d => d.body.flatMap Statement.code
  | .variableDef d => d.init.toList
  | .verbatim _ => []

def Tree.code (tree : Tree) : List Expr :=
  tree.members.flatMap Member.code

def Tree.codeAt? (tree : Tree) : List Nat → Option Expr
  | [] => none
  | position :: place => tree.code[position]?.bind fun e => e.at? place

def Tree.headAt? (tree : Tree) (place : List Nat) : Option Head :=
  (tree.codeAt? place).map Expr.head

theorem Tree.headAt?_cons (tree : Tree) (position : Nat) (place : List Nat) :
    tree.headAt? (position :: place) = tree.code[position]?.bind (Expr.headAt? · place) := by
  rw [headAt?, codeAt?, Option.map_bind]
  rfl

theorem eq_of_outlines {α γ : Type} {outline : α → α} {code : α → List γ}
    (sized : ∀ a, (code (outline a)).length = (code a).length)
    (filled : ∀ a b, outline a = outline b → code a = code b → a = b) {as bs : List α}
    (outlines : as.map outline = bs.map outline) (codes : as.flatMap code = bs.flatMap code) :
    as = bs := by
  induction as generalizing bs with
  | nil => simpa [eq_comm] using outlines
  | cons a as ih =>
      cases bs with
      | nil => simp at outlines
      | cons b bs =>
          obtain ⟨here, later⟩ := List.cons.inj outlines
          have room : (code a).length = (code b).length := by rw [← sized a, here, sized b]
          obtain ⟨first, rest⟩ := List.append_inj codes room
          rw [filled a b here first, ih later rest]

theorem Statement.length_code_outline (s : Statement) :
    s.outline.code.length = s.code.length := by
  cases s with
  | declare _ _ init => cases init <;> rfl
  | expr _ => rfl
  | giveBack e => cases e <;> rfl
  | verbatim _ => rfl

theorem Member.length_code_outline (m : Member) : m.outline.code.length = m.code.length := by
  cases m with
  | typeDef _ => rfl
  | functionDef d =>
      show ((d.body.map Statement.outline).flatMap Statement.code).length =
        (d.body.flatMap Statement.code).length
      rw [List.length_flatMap, List.length_flatMap, List.map_map]
      exact congrArg (fun length => (d.body.map length).sum) (funext Statement.length_code_outline)
  | variableDef d =>
      show (d.init.map fun _ => Expr.hole).toList.length = d.init.toList.length
      cases d.init <;> rfl
  | verbatim _ => rfl

theorem eq_of_toList {α : Type} {a b : Option α} (lists : a.toList = b.toList) : a = b := by
  simpa using congrArg List.head? lists

theorem Statement.eq_of_outline {s t : Statement} (outlines : s.outline = t.outline)
    (codes : s.code = t.code) : s = t := by
  have values : s.value? = t.value? := eq_of_toList codes
  cases s <;> cases t <;> simp_all [outline, value?]

theorem Member.eq_of_outline {m n : Member} (outlines : m.outline = n.outline)
    (codes : m.code = n.code) : m = n := by
  cases m with
  | typeDef d => cases n <;> simp_all [outline]
  | functionDef d =>
      cases n with
      | functionDef d' =>
          obtain ⟨metadata, isPublic, name, parameters, returnType, body⟩ := d
          obtain ⟨metadata', isPublic', name', parameters', returnType', body'⟩ := d'
          have bodies (lists : body.map Statement.outline = body'.map Statement.outline) :
              body = body' :=
            eq_of_outlines Statement.length_code_outline (fun _ _ => Statement.eq_of_outline) lists
              codes
          simp_all [outline]
      | _ => cases outlines
  | variableDef d =>
      cases n with
      | variableDef d' =>
          have init : d.init = d'.init := eq_of_toList codes
          obtain ⟨metadata, isPublic, isFinal, type, name, init⟩ := d
          obtain ⟨metadata', isPublic', isFinal', type', name', init'⟩ := d'
          simp_all [outline]
      | _ => cases outlines
  | verbatim _ => cases n <;> simp_all [outline]

theorem Tree.eq_of_outline {tree other : Tree} (outlines : tree.outline = other.outline)
    (heads : ∀ place, tree.headAt? place = other.headAt? place) : tree = other := by
  have codes : tree.code = other.code := by
    refine Expr.list_eq_of_heads (fun position place => ?_) fun e _ => e.eq_of_heads
    rw [← tree.headAt?_cons, ← other.headAt?_cons, heads]
  obtain ⟨imports, lists⟩ := Tree.mk.inj outlines
  have members : tree.members = other.members :=
    eq_of_outlines Member.length_code_outline (fun _ _ => Member.eq_of_outline) lists codes
  exact (Tree.mk.injEq ..).mpr ⟨imports, members⟩

/-! ## Renaming in a document -/

section Replace

variable (change : Expr → Option Expr)

theorem Statement.outline_replace (s : Statement) : (s.replace change).outline = s.outline := by
  cases s with
  | declare _ _ init => cases init <;> rfl
  | expr _ => rfl
  | giveBack e => cases e <;> rfl
  | verbatim _ => rfl

theorem Statement.code_replace (s : Statement) :
    (s.replace change).code = s.code.map (Expr.replace change) := by
  cases s with
  | declare _ _ init => cases init <;> rfl
  | expr _ => rfl
  | giveBack e => cases e <;> rfl
  | verbatim _ => rfl

theorem Member.outline_replace (m : Member) : (m.replace change).outline = m.outline := by
  cases m with
  | typeDef _ => rfl
  | functionDef d =>
      have statements : Statement.outline ∘ Statement.replace change = Statement.outline :=
        funext (Statement.outline_replace change)
      rw [replace, outline, outline, List.map_map, statements]
  | variableDef d =>
      rw [replace, outline, outline, Option.map_map]
      rfl
  | verbatim _ => rfl

theorem Member.code_replace (m : Member) :
    (m.replace change).code = m.code.map (Expr.replace change) := by
  cases m with
  | typeDef _ => rfl
  | functionDef d =>
      rw [replace, code, code, List.flatMap_map, List.map_flatMap]
      exact List.flatMap_congr fun s _ => s.code_replace change
  | variableDef d =>
      show (d.init.map _).toList = d.init.toList.map _
      cases d.init <;> rfl
  | verbatim _ => rfl

theorem Tree.outline_replace (tree : Tree) : (tree.replace change).outline = tree.outline := by
  have members : Member.outline ∘ Member.replace change = Member.outline :=
    funext (Member.outline_replace change)
  rw [replace, outline, outline, List.map_map, members]

theorem Tree.code_replace (tree : Tree) :
    (tree.replace change).code = tree.code.map (Expr.replace change) := by
  rw [replace, code, code, List.flatMap_map, List.map_flatMap]
  exact List.flatMap_congr fun m _ => m.code_replace change

variable {change}

theorem Tree.headAt?_replace (leafChange : Expr.IsLeafChange change) (tree : Tree)
    (place : List Nat) :
    (tree.replace change).headAt? place =
      (tree.codeAt? place).map fun part => ((change part).getD part).head := by
  cases place with
  | nil => rfl
  | cons position place =>
      rw [headAt?_cons, code_replace, List.getElem?_map, Option.bind_map, codeAt?, Option.map_bind]
      exact Option.bind_congr fun e _ => e.headAt?_replace leafChange place

end Replace

theorem Tree.replace_none (tree : Tree) : tree.replace (fun _ => none) = tree := by
  have leafChange : Expr.IsLeafChange fun _ => none := fun e f applies => nomatch applies
  refine eq_of_outline (tree.outline_replace _) fun place => ?_
  rw [tree.headAt?_replace leafChange]
  rfl

theorem isLeafChange_nameChange (old new : String) : Expr.IsLeafChange (nameChange old new) := by
  intro e f applies
  cases e with
  | name n =>
      cases n with
      | simple name =>
          rw [nameChange] at applies
          split at applies
          · cases applies
            exact ⟨rfl, rfl⟩
          · cases applies
      | qualified _ _ => cases applies
  | _ => cases applies

theorem head_nameChange (old new : String) (e : Expr) :
    ((nameChange old new e).getD e).head = e.head.rename old new := by
  cases e with
  | name n =>
      cases n with
      | simple name =>
          by_cases here : name = old <;> simp [nameChange, here, Expr.head, Head.rename]
      | qualified _ _ => rfl
  | _ => rfl

theorem Tree.headAt?_rename (old new : String) (tree : Tree) (place : List Nat) :
    (tree.rename old new).headAt? place = (tree.headAt? place).map (Head.rename old new) := by
  rw [rename, headAt?_replace (isLeafChange_nameChange old new), headAt?, Option.map_map]
  exact congrArg (Option.map · _) (funext (head_nameChange old new))

/-- A simple name stands as an expression in a function body or a first value, at some depth. -/
def Tree.HasName (tree : Tree) (name : String) : Prop :=
  ∃ place, tree.codeAt? place = some (.name (.simple name))

theorem Expr.head_eq_name_iff {e : Expr} {n : Name} : e.head = .name n ↔ e = .name n := by
  cases e <;> simp [head]

theorem Tree.hasName_iff (tree : Tree) (name : String) :
    tree.HasName name ↔ ∃ place, tree.headAt? place = some (.name (.simple name)) := by
  simp only [HasName, headAt?, Option.map_eq_some_iff, Expr.head_eq_name_iff, exists_eq_right]

namespace Head

theorem rename_ne {old new : String} (different : old ≠ new) (head : Head) :
    head.rename old new ≠ .name (.simple old) := by
  cases head with
  | name n =>
      cases n with
      | simple name => by_cases here : name = old <;> simp [rename, here, different.symm]
      | qualified _ _ => simp [rename]
  | _ => simp [rename]

theorem rename_rename {old new : String} {head : Head} (absent : head ≠ .name (.simple new)) :
    (head.rename old new).rename new old = head := by
  cases head with
  | name n =>
      cases n with
      | simple name =>
          have other : name ≠ new := by simpa using absent
          by_cases here : name = old <;> simp [rename, here, other]
      | qualified _ _ => rfl
  | _ => rfl

end Head

theorem Tree.not_hasName_rename {old new : String} (different : old ≠ new) (tree : Tree) :
    ¬(tree.rename old new).HasName old := by
  rw [hasName_iff]
  rintro ⟨place, found⟩
  rw [headAt?_rename, Option.map_eq_some_iff] at found
  obtain ⟨head, -, renamed⟩ := found
  exact head.rename_ne different renamed

theorem Tree.rename_rename {old new : String} {tree : Tree} (absent : ¬tree.HasName new) :
    (tree.rename old new).rename new old = tree := by
  refine eq_of_outline ?_ fun place => ?_
  · exact (outline_replace _ _).trans (outline_replace _ _)
  · rw [headAt?_rename, headAt?_rename, Option.map_map]
    refine (Option.map_congr fun head found => ?_).trans Option.map_id'
    refine Head.rename_rename ?_
    rintro rfl
    exact absent ((tree.hasName_iff new).mpr ⟨place, found⟩)

/-- A modifier that overrides nothing gives the document back. Renaming leaves the old name nowhere,
keeps the outline and all heads at their places except the name that it is about, and is undone by
renaming back if the new name was nowhere before. -/
theorem Modifier.apply_plain_and_renamer (tree : Tree) (old new : String) :
    plain.apply tree = tree.replace (fun _ => none) ∧ tree.replace (fun _ => none) = tree ∧
      (renamer old new).apply tree = tree.rename old new ∧
      (old ≠ new → ¬(tree.rename old new).HasName old) ∧
      (tree.rename old new).outline = tree.outline ∧
      (∀ place, (tree.rename old new).headAt? place =
        (tree.headAt? place).map (Head.rename old new)) ∧
      (¬tree.HasName new → (tree.rename old new).rename new old = tree) :=
  ⟨apply_plain tree, tree.replace_none, apply_renamer old new tree,
    fun different => tree.not_hasName_rename different, tree.outline_replace _,
    tree.headAt?_rename old new, Tree.rename_rename⟩

def querySpecimen : Tree where
  imports := [⟨some "ballerina", ["ai"], none⟩]
  members := [
    .typeDef ⟨some ⟨[], [⟨.qualified "ai" "q", some (.name (.simple "q"))⟩]⟩, true, "q", "string"⟩,
    .functionDef ⟨none, true, "q", [⟨"string", "q"⟩], none, [
      .declare "string" "r" (some (.check (.remote ⟨7, .name (.simple "p"), "q",
        [.name (.simple "q"), .mapping [("q", .list [.name (.simple "q")])]]⟩))),
      .verbatim "q;", .giveBack (some (.call (.simple "q") [.name (.simple "q")]))]⟩,
    .variableDef ⟨none, false, true, "string", "q", some (.name (.qualified "m" "q"))⟩]

theorem Modifier.apply_plain_and_renamer_specimen :
    "q" ≠ "query" ∧ querySpecimen.HasName "q" ∧ ¬querySpecimen.HasName "query" ∧
      ¬(querySpecimen.rename "q" "query").HasName "q" ∧
      (querySpecimen.rename "q" "query").rename "query" "q" = querySpecimen := by
  have absent : ¬querySpecimen.HasName "query" := by
    -- A name whose replacement changes nothing stands nowhere.
    have same : querySpecimen.rename "query" "other" = querySpecimen := by decide +kernel
    rw [← same]
    exact Tree.not_hasName_rename (by decide) _
  obtain ⟨-, -, -, gone, -, -, back⟩ := apply_plain_and_renamer querySpecimen "q" "query"
  exact ⟨by decide, ⟨[0, 0, 1], rfl⟩, absent, gone (by decide), back absent⟩

end SchemaWeaver.Source
