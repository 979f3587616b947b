import SchemaWeaver.Marking
import SchemaWeaver.Source.Preorder
import Mathlib.Data.List.Basic

/-!
Marking a document with the schemas of a catalog: a document that was marked once gets no second
mark, a document without a new mark stays as it is, and the calls in a document are those from
before, because a schema is written as a literal.
-/

set_option autoImplicit false
set_option relaxedAutoImplicit false

namespace SchemaWeaver

open Source (Expr Mark Member Node Tree TypeDef)

namespace Source

mutual

theorem calls_ofJson : (v : Json) → (Expr.ofJson v).nodes.filterMap Node.call? = []
  | .null => rfl
  | .bool _ => rfl
  | .num _ => rfl
  | .str _ => rfl
  | .arr items => by
      simp only [Expr.ofJson, Expr.nodes, List.filterMap_cons, Node.call?]
      exact calls_itemsOfJson items
  | .obj entries => by
      simp only [Expr.ofJson, Expr.nodes, List.filterMap_cons, Node.call?]
      exact calls_fieldsOfJson entries

theorem calls_itemsOfJson :
    (items : List Json) → (Expr.itemNodes (itemsOfJson items)).filterMap Node.call? = []
  | [] => rfl
  | v :: rest => by
      rw [itemsOfJson, Expr.itemNodes, List.filterMap_append, calls_ofJson v,
        calls_itemsOfJson rest]
      rfl

theorem calls_fieldsOfJson :
    (entries : List (String × Json)) →
      (Expr.fieldNodes (fieldsOfJson entries)).filterMap Node.call? = []
  | [] => rfl
  | (key, v) :: rest => by
      rw [fieldsOfJson, Expr.fieldNodes, List.filterMap_append, calls_ofJson v,
        calls_fieldsOfJson rest]
      rfl

end

theorem calls_readMapping {text : List Char} {schema : Expr}
    (read : readMapping text = .ok schema) : schema.nodes.filterMap Node.call? = [] := by
  unfold readMapping at read
  split at read
  · cases read
  · cases read
    exact calls_ofJson _
  · cases read

theorem Tree.calls_eq_flatMap (tree : Tree) :
    tree.calls = tree.members.flatMap fun member => member.nodes.filterMap Node.call? := by
  have imports : (tree.imports.map Node.importing).filterMap Node.call? = [] := by
    induction tree.imports with
    | nil => rfl
    | cons i imports ih =>
        rw [List.map_cons, List.filterMap_cons, ih]
        rfl
  rw [Tree.calls, Tree.nodes, List.filterMap_cons_none rfl, List.filterMap_append, imports,
    List.nil_append, List.filterMap_flatMap]

end Source

namespace Marker

variable (m : Marker)

@[simp]
theorem marks_append (mark : Mark) (d : TypeDef) : (append mark d).marks = d.marks ++ [mark] := by
  cases metadata : d.metadata <;> simp [append, TypeDef.marks, metadata]

theorem verdict_eq_mark_iff {d : TypeDef} {schema : Expr} :
    m.verdict d = .mark schema ↔
      ∃ text, Keyed.get? m.catalog d.name = some text ∧ m.isMarked d = false ∧
        Source.readMapping text.toList = .ok schema := by
  unfold verdict
  cases found : Keyed.get? m.catalog d.name with
  | none => simp
  | some text =>
      cases marked : m.isMarked d with
      | true => simp
      | false =>
          cases read : Source.readMapping text.toList with
          | error cause => simp [read]
          | ok value => simp [read]

theorem isMarking_eq_true_iff {d : TypeDef} :
    m.isMarking d = true ↔ ∃ schema, m.verdict d = .mark schema := by
  unfold isMarking
  cases verdict : m.verdict d <;> simp

theorem markTypeDef_of_mark {d : TypeDef} {schema : Expr} (due : m.verdict d = .mark schema) :
    m.markTypeDef d = append (schemaMark m.qualifier schema) d := by
  simp only [markTypeDef, due]

theorem markTypeDef_of_not_marking {d : TypeDef} (kept : m.isMarking d = false) :
    m.markTypeDef d = d := by
  unfold isMarking at kept
  unfold markTypeDef
  cases verdict : m.verdict d <;> simp_all

theorem isMarking_markTypeDef (d : TypeDef) : m.isMarking (m.markTypeDef d) = false := by
  cases marking : m.isMarking d with
  | false => rwa [m.markTypeDef_of_not_marking marking]
  | true =>
      obtain ⟨schema, due⟩ := m.isMarking_eq_true_iff.mp marking
      rw [m.markTypeDef_of_mark due]
      -- A second mark would need a definition without a mark of that name.
      by_contra again
      obtain ⟨other, due⟩ := m.isMarking_eq_true_iff.mp (by simpa using again)
      obtain ⟨-, -, unmarked, -⟩ := m.verdict_eq_mark_iff.mp due
      simp [isMarked, schemaMark, Mark.isNamed] at unmarked

theorem insertions_pos_iff {tree : Tree} :
    0 < m.insertions tree ↔ ∃ d, Member.typeDef d ∈ tree.members ∧ m.isMarking d = true := by
  unfold insertions Tree.typeDefs
  rw [List.countP_pos_iff]
  constructor
  · rintro ⟨d, member, marking⟩
    obtain ⟨member', found, isDefinition⟩ := List.mem_filterMap.mp member
    cases member' with
    | typeDef definition =>
        cases isDefinition
        exact ⟨d, found, marking⟩
    | functionDef _ => cases isDefinition
    | variableDef _ => cases isDefinition
    | verbatim _ => cases isDefinition
  · rintro ⟨d, found, marking⟩
    exact ⟨d, List.mem_filterMap.mpr ⟨_, found, rfl⟩, marking⟩

theorem insertions_markTree (tree : Tree) : m.insertions (m.markTree tree) = 0 := by
  refine Nat.eq_zero_of_not_pos fun positive => ?_
  obtain ⟨d, member, marking⟩ := m.insertions_pos_iff.mp positive
  obtain ⟨original, -, same⟩ := List.mem_map.mp member
  cases original with
  | typeDef definition =>
      obtain rfl : m.markTypeDef definition = d := by simpa [markMember] using same
      rw [m.isMarking_markTypeDef] at marking
      cases marking
  | functionDef _ => cases same
  | variableDef _ => cases same
  | verbatim _ => cases same

theorem markTree_eq_self_iff {tree : Tree} : m.markTree tree = tree ↔ m.insertions tree = 0 := by
  constructor
  · intro same
    have none := m.insertions_markTree tree
    rwa [same] at none
  · intro none
    have unchanged : ∀ member ∈ tree.members, m.markMember member = member := by
      intro member found
      cases member with
      | typeDef d =>
          have kept : m.isMarking d = false := by
            by_contra marking
            have positive := m.insertions_pos_iff.mpr ⟨d, found, by simpa using marking⟩
            omega
          rw [markMember, m.markTypeDef_of_not_marking kept]
      | functionDef _ => rfl
      | variableDef _ => rfl
      | verbatim _ => rfl
    have members : tree.members.map m.markMember = tree.members := by
      rw [List.map_congr_left unchanged, List.map_id']
    rw [markTree, members]

private theorem calls_append {mark : Mark} (silent : mark.nodes.filterMap Node.call? = [])
    (d : TypeDef) :
    (Source.metadataNodes (append mark d).metadata).filterMap Node.call? =
      (Source.metadataNodes d.metadata).filterMap Node.call? := by
  cases found : d.metadata with
  | none =>
      simp only [append, found, Option.getD_none, Source.metadataNodes, List.nil_append,
        List.flatMap_singleton]
      rw [List.filterMap_cons_none rfl, silent, List.filterMap_nil]
  | some metadata =>
      simp only [append, found, Option.getD_some, Source.metadataNodes, List.flatMap_append,
        List.flatMap_singleton]
      rw [List.filterMap_cons_none rfl, List.filterMap_cons_none rfl, List.filterMap_append, silent,
        List.append_nil]

private theorem calls_markMember (member : Member) :
    (m.markMember member).nodes.filterMap Node.call? = member.nodes.filterMap Node.call? := by
  cases member with
  | typeDef d =>
      cases marking : m.isMarking d with
      | false => rw [markMember, m.markTypeDef_of_not_marking marking]
      | true =>
          obtain ⟨schema, due⟩ := m.isMarking_eq_true_iff.mp marking
          obtain ⟨text, -, -, read⟩ := m.verdict_eq_mark_iff.mp due
          have silent : (schemaMark m.qualifier schema).nodes.filterMap Node.call? = [] := by
            simp only [schemaMark, Mark.nodes, Source.optionalNodes]
            rw [List.filterMap_cons_none rfl]
            exact Source.calls_readMapping read
          rw [markMember, m.markTypeDef_of_mark due]
          simp only [Member.nodes, List.filterMap_cons, Node.call?]
          exact calls_append silent d
  | functionDef _ => rfl
  | variableDef _ => rfl
  | verbatim _ => rfl

theorem calls_markTree (tree : Tree) : (m.markTree tree).calls = tree.calls := by
  simp only [Source.Tree.calls_eq_flatMap, markTree, List.flatMap_map, calls_markMember]

end Marker

end SchemaWeaver
