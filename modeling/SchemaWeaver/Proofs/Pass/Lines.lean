import SchemaWeaver.Proofs.Pass.Effect
import SchemaWeaver.Proofs.Source.Datum
import SchemaWeaver.Proofs.Text.Lines

/-!
The text of a document before and after the pass. All that the pass does to a text is to add lines:
one for each new mark, right before the line on which the definition that got it begins, one that
imports the mark's module if it was not imported, and an empty one behind that if it is the only
import. The comparison of the two texts is put together from whole lines, in the order in which
documents are written.
-/

set_option autoImplicit false
set_option relaxedAutoImplicit false

namespace SchemaWeaver

open Source (AiImport Expr Import IsDatum Mark Member Metadata Tree TypeDef memberLines)
open Text (DiffLine Grows IsDiff lines)
open Text.DiffLine (kept added kept? added?)

namespace Source

/-! ## Where definitions begin -/

def metadataText : Option Metadata → List Char
  | none => []
  | some metadata => metadata.text

def TypeDef.opening (d : TypeDef) : List Char :=
  if d.isPublic then "public type ".toList else "type ".toList

def TypeDef.statement (d : TypeDef) : List Char :=
  d.opening ++ (d.name.toList ++ ' ' :: (d.descriptor.toList ++ [';']))

def Member.front : Member → List Char
  | .typeDef d => metadataText d.metadata
  | .functionDef d => metadataText d.metadata
  | .variableDef d => metadataText d.metadata
  | .verbatim _ => []

/-- The line feed that makes the empty line before a member that is not the first thing of the
document. -/
def separatorText (first : Bool) : List Char := if first then [] else ['\n']

/-- The text of members up to the point where the member at a place begins, behind its documentation
and marks. -/
def membersBefore (first : Bool) : List Member → Nat → List Char
  | [], _ => []
  | member :: _, 0 => separatorText first ++ member.front
  | member :: rest, place + 1 =>
      separatorText first ++ ((member.text ++ ['\n']) ++ membersBefore false rest place)

def importsText (imports : List Import) : List Char :=
  imports.flatMap fun i => i.text ++ ['\n']

/-- The text of a document up to the point where the member at a place begins, behind its
documentation and marks. -/
def Tree.textBefore (tree : Tree) (place : Nat) : List Char :=
  importsText tree.imports ++ membersBefore tree.imports.isEmpty tree.members place

theorem TypeDef.text_eq (d : TypeDef) : d.text = metadataText d.metadata ++ d.statement := by
  have words : "public ".toList ++ "type ".toList = "public type ".toList := rfl
  unfold text statement opening openingText metadataText
  cases d.metadata <;> cases d.isPublic <;>
    simp only [List.append_assoc, List.nil_append, List.append_nil, List.cons_append, ← words,
      if_true, if_false, Bool.false_eq_true]

theorem memberLines_cons (first : Bool) (member : Member) (rest : List Member) :
    memberLines first (member :: rest) =
      separatorText first ++ ((member.text ++ ['\n']) ++ memberLines false rest) := by
  simp only [memberLines, separatorText, List.append_assoc, List.singleton_append]

theorem exists_memberLines_eq (first : Bool) {members : List Member} {place : Nat} {d : TypeDef}
    (here : members[place]? = some (.typeDef d)) :
    ∃ rest, memberLines first members =
      membersBefore first members place ++ (d.statement ++ rest) := by
  induction members generalizing first place with
  | nil => cases here
  | cons member members ih =>
      rw [memberLines_cons]
      cases place with
      | zero =>
          obtain rfl : member = .typeDef d := by simpa using here
          refine ⟨'\n' :: memberLines false members, ?_⟩
          simp only [membersBefore, Member.front, Member.text, TypeDef.text_eq, List.append_assoc,
            List.singleton_append]
      | succ place =>
          obtain ⟨rest, same⟩ := ih false here
          exact ⟨rest, by simp only [membersBefore, same, List.append_assoc]⟩

theorem exists_text_eq {tree : Tree} {place : Nat} {d : TypeDef}
    (here : tree.members[place]? = some (.typeDef d)) :
    ∃ rest, tree.text = tree.textBefore place ++ (d.statement ++ rest) := by
  obtain ⟨rest, same⟩ := exists_memberLines_eq tree.imports.isEmpty here
  refine ⟨rest, ?_⟩
  rw [Tree.text, same, Tree.textBefore, importsText, List.append_assoc]

theorem newline_notMem_opening (d : TypeDef) : '\n' ∉ d.opening := by
  unfold TypeDef.opening
  split <;> decide

end Source

open Source

/-! ## Comparing the texts part by part -/

def metadataDiff : Option Metadata → List DiffLine
  | none => []
  | some metadata =>
      (metadata.documentation.flatMap fun line => (lines (documentationLine line)).map kept) ++
        metadata.marks.flatMap fun mark => (lines mark.text).map kept

theorem grows_metadata (metadata : Option Metadata) :
    Grows (metadataDiff metadata) (metadataText metadata) (metadataText metadata) := by
  cases metadata with
  | none => exact .nil
  | some metadata =>
      exact (Grows.keepAll documentationLine metadata.documentation).append
        (Grows.keepAll Mark.text metadata.marks)

/-- The empty line before a member, where the member is the first thing of the one text or of
both. -/
def separatorDiff : Bool → Bool → List DiffLine
  | _, true => []
  | true, false => [.added []]
  | false, false => [.kept []]

theorem grows_separator {first first' : Bool} (still : first' = true → first = true) :
    Grows (separatorDiff first first') (separatorText first) (separatorText first') := by
  cases first' with
  | true =>
      rw [still rfl]
      exact .nil
  | false =>
      cases first with
      | true => exact .add []
      | false => exact .keep []

namespace Marker

variable (m : Marker)

def newMarks (d : TypeDef) : List Mark :=
  match m.verdict d with
  | .mark schema => [schemaMark m.qualifier schema]
  | _ => []

theorem newMarks_of_mark {d : TypeDef} {schema : Expr} (due : m.verdict d = .mark schema) :
    m.newMarks d = [schemaMark m.qualifier schema] := by
  simp only [newMarks, due]

theorem newMarks_of_not_marking {d : TypeDef} (kept : m.isMarking d = false) :
    m.newMarks d = [] := by
  unfold isMarking at kept
  unfold newMarks
  cases verdict : m.verdict d <;> simp_all

theorem metadataText_append (mark : Mark) (d : TypeDef) :
    metadataText (append mark d).metadata = metadataText d.metadata ++ (mark.text ++ ['\n']) := by
  cases metadata : d.metadata <;> simp [append, metadata, metadataText, Metadata.text]

theorem markTypeDef_cases (d : TypeDef) :
    m.newMarks d = [] ∧ m.markTypeDef d = d ∨
      ∃ mark, m.newMarks d = [mark] ∧ m.markTypeDef d = append mark d := by
  cases marking : m.isMarking d with
  | false => exact Or.inl ⟨m.newMarks_of_not_marking marking, m.markTypeDef_of_not_marking marking⟩
  | true =>
      obtain ⟨schema, due⟩ := m.isMarking_eq_true_iff.mp marking
      exact Or.inr ⟨_, m.newMarks_of_mark due, m.markTypeDef_of_mark due⟩

theorem metadataText_markTypeDef (d : TypeDef) :
    metadataText (m.markTypeDef d).metadata = metadataText d.metadata ++
      (m.newMarks d).flatMap fun mark => mark.text ++ ['\n'] := by
  rcases m.markTypeDef_cases d with ⟨none, same⟩ | ⟨mark, one, marked⟩
  · rw [none, same, List.flatMap_nil, List.append_nil]
  · rw [one, marked, metadataText_append, List.flatMap_singleton]

theorem statement_markTypeDef (d : TypeDef) : (m.markTypeDef d).statement = d.statement := by
  rcases m.markTypeDef_cases d with ⟨-, same⟩ | ⟨mark, -, marked⟩
  · rw [same]
  · rw [marked]
    rfl

theorem marks_markTypeDef (d : TypeDef) : (m.markTypeDef d).marks = d.marks ++ m.newMarks d := by
  rcases m.markTypeDef_cases d with ⟨none, same⟩ | ⟨mark, one, marked⟩
  · rw [none, same, List.append_nil]
  · rw [one, marked, marks_append]

def memberDiff : Member → List DiffLine
  | .typeDef d =>
      (metadataDiff d.metadata ++ (m.newMarks d).flatMap fun mark => (lines mark.text).map added) ++
        (lines d.statement).map kept
  | member => (lines member.text).map kept

theorem grows_member (member : Member) :
    Grows (m.memberDiff member) (member.text ++ ['\n']) ((m.markMember member).text ++ ['\n']) := by
  cases member with
  | typeDef d =>
      have whole := ((grows_metadata d.metadata).append
        (Grows.addAll Mark.text (m.newMarks d))).append (Grows.keep d.statement)
      rw [markMember, Member.text, Member.text, TypeDef.text_eq, TypeDef.text_eq,
        m.metadataText_markTypeDef, m.statement_markTypeDef]
      rwa [List.append_nil, ← List.append_assoc, ← List.append_assoc] at whole
  | functionDef _ => exact .keep _
  | variableDef _ => exact .keep _
  | verbatim _ => exact .keep _

def membersDiff (separator : List DiffLine) : List Member → List DiffLine
  | [] => []
  | member :: rest =>
      separator ++ (m.memberDiff member ++ membersDiff [.kept []] rest)

section Members

variable {first first' : Bool} {separator : List DiffLine}

theorem grows_members (starts : Grows separator (separatorText first) (separatorText first'))
    (members : List Member) :
    Grows (m.membersDiff separator members) (memberLines first members)
      (memberLines first' (members.map m.markMember)) := by
  induction members generalizing first first' separator with
  | nil => exact .nil
  | cons member members ih =>
      rw [List.map_cons, memberLines_cons, memberLines_cons]
      exact starts.append ((m.grows_member member).append (ih (Grows.keep [])))

theorem exists_membersDiff_eq
    (starts : Grows separator (separatorText first) (separatorText first'))
    {members : List Member} {place : Nat} {d : TypeDef}
    (here : members[place]? = some (.typeDef d)) {mark : Mark} (new : m.newMarks d = [mark])
    (single : '\n' ∉ mark.text) :
    ∃ early late, m.membersDiff separator members =
        early ++ (.added mark.text :: ((lines d.statement).map kept ++ late)) ∧
      Grows (early ++ [.added mark.text]) (membersBefore first members place)
        (membersBefore first' (members.map m.markMember) place) := by
  have added : Grows [.added mark.text] [] (mark.text ++ ['\n']) := by
    have line := Grows.add mark.text
    rwa [Text.lines_of_notMem single] at line
  induction members generalizing first first' separator place with
  | nil => cases here
  | cons member members ih =>
      cases place with
      | zero =>
          obtain rfl : member = .typeDef d := by simpa using here
          refine ⟨separator ++ metadataDiff d.metadata, m.membersDiff [.kept []] members, ?_, ?_⟩
          · simp only [membersDiff, memberDiff, new, List.flatMap_singleton,
              Text.lines_of_notMem single, List.map_singleton, List.append_assoc, List.cons_append,
              List.nil_append]
          · have front := m.metadataText_markTypeDef d
            rw [new, List.flatMap_singleton] at front
            have whole := starts.append ((grows_metadata d.metadata).append added)
            rw [List.append_nil, ← front, ← List.append_assoc] at whole
            exact whole
      | succ place =>
          have apart : Grows [.kept []] (separatorText false) (separatorText false) := Grows.keep []
          obtain ⟨early, late, same, grows⟩ := ih apart here
          refine ⟨separator ++ (m.memberDiff member ++ early), late, ?_, ?_⟩
          · rw [membersDiff, same]
            simp only [List.append_assoc]
          · have whole := starts.append ((m.grows_member member).append grows)
            rwa [← List.append_assoc (m.memberDiff member), ← List.append_assoc separator] at whole

end Members

theorem filterMap_added?_memberDiff (member : Member) :
    (m.memberDiff member).filterMap added? =
      member.typeDef?.toList.flatMap fun d =>
        (m.newMarks d).flatMap fun mark => lines mark.text := by
  cases member with
  | typeDef d =>
      have metadata : (metadataDiff d.metadata).filterMap added? = [] := by
        cases d.metadata with
        | none => rfl
        | some metadata =>
            rw [metadataDiff, List.filterMap_append, DiffLine.filterMap_added?_flatMap_kept,
              DiffLine.filterMap_added?_flatMap_kept, List.append_nil]
      rw [memberDiff, List.filterMap_append, List.filterMap_append, metadata,
        DiffLine.filterMap_added?_kept, DiffLine.filterMap_added?_flatMap_added, List.append_nil,
        List.nil_append, Member.typeDef?, Option.toList_some, List.flatMap_singleton]
  | functionDef _ => exact DiffLine.filterMap_added?_kept _
  | variableDef _ => exact DiffLine.filterMap_added?_kept _
  | verbatim _ => exact DiffLine.filterMap_added?_kept _

theorem filterMap_added?_membersDiff (separator : List DiffLine) (members : List Member) :
    (m.membersDiff separator members).filterMap added? =
      (if members = [] then [] else separator.filterMap added?) ++
        (members.filterMap Member.typeDef?).flatMap fun d =>
          (m.newMarks d).flatMap fun mark => lines mark.text := by
  induction members generalizing separator with
  | nil => rfl
  | cons member members ih =>
      have apart : [DiffLine.kept []].filterMap added? = [] := rfl
      have definitions : (member :: members).filterMap Member.typeDef? =
          member.typeDef?.toList ++ members.filterMap Member.typeDef? := by
        cases member <;> rfl
      rw [membersDiff, List.filterMap_append, List.filterMap_append, ih, apart, ite_self,
        List.nil_append, if_neg (List.cons_ne_nil _ _), m.filterMap_added?_memberDiff,
        definitions, List.flatMap_append]

end Marker

/-! ## Whole documents -/

def importsDiff (imports new : List Import) : List DiffLine :=
  (imports.flatMap fun i => (lines i.text).map kept) ++
    new.flatMap fun i => (lines i.text).map added

theorem grows_imports (imports new : List Import) :
    Grows (importsDiff imports new) (importsText imports) (importsText (imports ++ new)) := by
  have whole := (Grows.keepAll Import.text imports).append (Grows.addAll Import.text new)
  rwa [List.append_nil, ← List.flatMap_append] at whole

namespace Marker

variable (m : Marker) (tree : Tree) (new : List Import)

def extend : Tree := ⟨tree.imports ++ new, tree.members.map m.markMember⟩

/-- The lines of a document with new marks and imports. The last one is empty, because a document
ends with a line feed. -/
def treeDiff : List DiffLine :=
  (importsDiff tree.imports new ++
    m.membersDiff (separatorDiff tree.imports.isEmpty (tree.imports ++ new).isEmpty)
      tree.members) ++ [.kept []]

theorem grows_start :
    Grows (separatorDiff tree.imports.isEmpty (tree.imports ++ new).isEmpty)
      (separatorText tree.imports.isEmpty) (separatorText (tree.imports ++ new).isEmpty) := by
  apply grows_separator
  intro none
  rw [List.isEmpty_iff] at none ⊢
  exact (List.append_eq_nil_iff.mp none).1

theorem isDiff_treeDiff :
    IsDiff (m.treeDiff tree new) (lines tree.text) (lines (m.extend tree new).text) := by
  have members := m.grows_members (grows_start tree new) tree.members
  exact ((grows_imports tree.imports new).append members).isDiff

variable {tree}

/-- A new mark that is one line has that line to itself, and the definition begins on the next one.
-/
theorem exists_markLine {place : Nat} {d : TypeDef}
    (here : tree.members[place]? = some (.typeDef d)) {mark : Mark}
    (inserted : m.newMarks d = [mark]) (single : '\n' ∉ mark.text) :
    ∃ number rest, (m.treeDiff tree new)[number]? = some (.added mark.text) ∧
      (m.treeDiff tree new)[number + 1]? = some (.kept (d.opening ++ rest)) ∧
      ((m.extend tree new).textBefore place).count '\n' = number + 1 := by
  obtain ⟨early, late, same, grows⟩ :=
    m.exists_membersDiff_eq (grows_start tree new) here inserted single
  obtain ⟨rest, others, statement⟩ := Text.exists_lines_append (newline_notMem_opening d)
    (d.name.toList ++ ' ' :: (d.descriptor.toList ++ [';']))
  rw [← TypeDef.statement] at statement
  have whole : m.treeDiff tree new = (importsDiff tree.imports new ++ early) ++
      (.added mark.text :: .kept (d.opening ++ rest) ::
        (others.map kept ++ (late ++ [.kept []]))) := by
    rw [treeDiff, same, statement]
    simp only [List.map_cons, List.append_assoc, List.cons_append]
  have front := ((grows_imports tree.imports new).append grows).count_newline
  refine ⟨(importsDiff tree.imports new ++ early).length, rest, ?_, ?_, ?_⟩
  · rw [whole, List.getElem?_append_right (Nat.le_refl _), Nat.sub_self]
    rfl
  · rw [whole, List.getElem?_append_right (by omega), Nat.add_sub_cancel_left]
    rfl
  · rw [← List.append_assoc, List.length_append, List.length_singleton] at front
    exact front

end Marker

def insertedMarks (before after : Tree) : List Mark :=
  (before.typeDefs.zip after.typeDefs).flatMap fun pair =>
    pair.2.marks.drop pair.1.marks.length

theorem insertedMarks_extend (m : Marker) (tree : Tree) (new : List Import) :
    insertedMarks tree (m.extend tree new) = tree.typeDefs.flatMap m.newMarks := by
  have definitions : (m.extend tree new).typeDefs = tree.typeDefs.map m.markTypeDef := by
    rw [Tree.typeDefs, Marker.extend, List.filterMap_map, Tree.typeDefs, List.map_filterMap]
    congr 1
    funext member
    cases member <;> rfl
  have behind (d : TypeDef) : (m.markTypeDef d).marks.drop d.marks.length = m.newMarks d := by
    rw [m.marks_markTypeDef, List.drop_left]
  rw [insertedMarks, definitions, ← List.map_prod_left_eq_zip, List.flatMap_map]
  simp only [behind]

def ImportAdded (before after : Tree) : Prop :=
  after.imports = before.imports ++ [AiImport.declaration]

instance (before after : Tree) : Decidable (ImportAdded before after) :=
  inferInstanceAs (Decidable (_ = _))

/-- The lines that belong to an added import: if it is the only one, an empty line follows it. -/
def importLines (before after : Tree) : List (List Char) :=
  if ImportAdded before after then
    if before.imports = [] then ["import ballerina/ai;".toList, []]
    else ["import ballerina/ai;".toList]
  else []

/-- The mark that the definition at a place got has a line to itself, and the definition begins on
the next line. Lines are numbered from nought. -/
structure MarkedAt (catalog : Catalog) (before after : Tree) (diff : List DiffLine) (place : Nat)
    (mark : Mark) (d : TypeDef) (number : Nat) : Prop where
  defined : before.members[place]? = some (.typeDef d)
  written : ∃ qualifier schema, markQualifier? before.imports = some qualifier ∧
    IsDue catalog qualifier d schema ∧
    mark.text = '@' :: (qualifier.toList ++ (":JsonSchema ".toList ++ schema.text))
  line : diff[number]? = some (.added mark.text)
  next : ∃ rest, diff[number + 1]? = some (.kept (d.opening ++ rest))
  begins : ∃ rest, after.text = after.textBefore place ++ (d.statement ++ rest)
  above : (after.textBefore place).count '\n' = number + 1

/-- A comparison of the texts of a document before and after, in which only the import and the new
marks are new. -/
structure IsMarkDiff (catalog : Catalog) (before after : Tree) (diff : List DiffLine) : Prop where
  isDiff : IsDiff diff (lines before.text) (lines after.text)
  added : diff.filterMap added? =
    importLines before after ++ (insertedMarks before after).map Mark.text
  marks : ∀ place mark, MarkInserted before after place mark →
    ∃ d number, MarkedAt catalog before after diff place mark d number

/-- All that becomes of the text of a document is that it gets more lines. -/
structure OnlyAddsLines (catalog : Catalog) (before after : Tree) : Prop where
  sublist : (lines before.text).Sublist (lines after.text)
  imports : ImportAdded before after ∨ after.imports = before.imports
  length : (∀ qualifier ∈ markQualifier? before.imports, '\n' ∉ qualifier.toList) →
    (lines after.text).length = (lines before.text).length + (insertedMarks before after).length +
      (if ImportAdded before after then 1 else 0) +
      (if ImportAdded before after ∧ before.imports = [] then 1 else 0)
  placed : (∀ qualifier ∈ markQualifier? before.imports, '\n' ∉ qualifier.toList) →
    ∃ diff, IsMarkDiff catalog before after diff

theorem text_schemaMark (qualifier : String) (schema : Expr) :
    (schemaMark qualifier schema).text =
      '@' :: (qualifier.toList ++ (":JsonSchema ".toList ++ schema.text)) := by
  have name : ":JsonSchema ".toList = ':' :: schemaMarkName.toList ++ [' '] := rfl
  simp only [Mark.text, schemaMark, Name.text, name, List.cons_append, List.append_assoc,
    List.nil_append]

theorem newline_notMem_newMarks {m : Marker} (single : '\n' ∉ m.qualifier.toList) {d : TypeDef}
    {mark : Mark} (new : mark ∈ m.newMarks d) : '\n' ∉ mark.text := by
  cases marking : m.isMarking d with
  | false =>
      rw [m.newMarks_of_not_marking marking] at new
      cases new
  | true =>
      obtain ⟨schema, due⟩ := m.isMarking_eq_true_iff.mp marking
      obtain ⟨text, -, -, read⟩ := m.verdict_eq_mark_iff.mp due
      have datum : IsDatum schema := isDatum_of_readMapping read
      rw [m.newMarks_of_mark due, List.mem_singleton] at new
      rw [new, text_schemaMark, List.mem_cons, List.mem_append, List.mem_append]
      rintro (sign | qualifier | name | value)
      · cases sign
      · exact single qualifier
      · exact absurd name (by decide)
      · exact datum.newline_notMem_text value

/-- The marker of a document. It has nothing to write where the mark's module is invisible. -/
def markerOf (catalog : Catalog) (tree : Tree) : Marker :=
  match (AiImport.ofImports tree.imports).qualifier? with
  | none => ⟨[], ""⟩
  | some qualifier => ⟨catalog, qualifier⟩

def newImports (catalog : Catalog) (tree : Tree) : List Import :=
  if 0 < (markerOf catalog tree).insertions tree ∧ AiImport.ofImports tree.imports = .absent then
    [AiImport.declaration]
  else []

theorem withSchemas_eq_extend (catalog : Catalog) (tree : Tree) :
    withSchemas catalog tree = (markerOf catalog tree).extend tree (newImports catalog tree) := by
  cases visible : (AiImport.ofImports tree.imports).qualifier? with
  | none =>
      have marker : markerOf catalog tree = ⟨[], ""⟩ := by rw [markerOf, visible]
      have none : Marker.insertions ⟨[], ""⟩ tree = 0 := by
        refine Nat.eq_zero_of_not_pos fun positive => ?_
        obtain ⟨d, schema, -, due⟩ := insertions_pos_iff_someDue.mp positive
        obtain ⟨text, listed, -⟩ := due.listed
        cases listed
      have kept := (Marker.markTree_eq_self_iff _).mpr none
      rw [withSchemas, visible, newImports, marker, none, if_neg (by simp), Marker.extend,
        List.append_nil]
      exact kept.symm
  | some qualifier =>
      have marker : markerOf catalog tree = ⟨catalog, qualifier⟩ := by rw [markerOf, visible]
      have imports :
          (withSchemas catalog tree).imports = tree.imports ++ newImports catalog tree := by
        rw [imports_withSchemas catalog visible, newImports, marker]
        split <;> simp
      have members := members_withSchemas catalog visible
      calc withSchemas catalog tree
          = ⟨(withSchemas catalog tree).imports, (withSchemas catalog tree).members⟩ := rfl
        _ = _ := by rw [imports, members, marker, Marker.extend, Marker.markTree]

theorem importAdded_withSchemas_iff {catalog : Catalog} {tree : Tree} :
    ImportAdded tree (withSchemas catalog tree) ↔
      newImports catalog tree = [AiImport.declaration] := by
  rw [ImportAdded, withSchemas_eq_extend, Marker.extend, List.append_cancel_left_eq]

theorem filterMap_added?_treeDiff {catalog : Catalog} {tree : Tree}
    (single : '\n' ∉ (markerOf catalog tree).qualifier.toList) :
    ((markerOf catalog tree).treeDiff tree (newImports catalog tree)).filterMap added? =
      importLines tree (withSchemas catalog tree) ++
        (insertedMarks tree (withSchemas catalog tree)).map Mark.text := by
  have imports : (importsDiff tree.imports (newImports catalog tree)).filterMap added? =
      (newImports catalog tree).flatMap fun i => lines i.text := by
    rw [importsDiff, List.filterMap_append, DiffLine.filterMap_added?_flatMap_kept,
      DiffLine.filterMap_added?_flatMap_added, List.nil_append]
  have marks : (tree.typeDefs.flatMap fun d =>
      ((markerOf catalog tree).newMarks d).flatMap fun mark => lines mark.text) =
        (insertedMarks tree (withSchemas catalog tree)).map Mark.text := by
    rw [withSchemas_eq_extend, insertedMarks_extend, ← List.flatMap_assoc, List.map_eq_flatMap]
    apply List.flatMap_congr
    intro mark inserted
    obtain ⟨d, -, new⟩ := List.mem_flatMap.mp inserted
    exact Text.lines_of_notMem (newline_notMem_newMarks single new)
  have final : [DiffLine.kept []].filterMap added? = [] := rfl
  rw [Marker.treeDiff, List.filterMap_append, List.filterMap_append, imports, final,
    List.append_nil, Marker.filterMap_added?_membersDiff, ← List.append_assoc, ← Tree.typeDefs,
    marks, List.append_cancel_right_eq, importLines]
  simp only [importAdded_withSchemas_iff]
  by_cases needed : 0 < (markerOf catalog tree).insertions tree ∧
      AiImport.ofImports tree.imports = .absent
  · -- A document that gets an import has a definition, so an empty line follows the import.
    obtain ⟨d, member, -⟩ := (Marker.insertions_pos_iff _).mp needed.1
    have filled : tree.members ≠ [] := List.ne_nil_of_mem member
    rw [newImports, if_pos needed, if_pos rfl, if_neg filled]
    cases imports : tree.imports <;> rfl
  · have apart (first : Bool) : (separatorDiff first first).filterMap added? = [] := by
      cases first <;> rfl
    rw [newImports, if_neg needed, List.append_nil, apart, ite_self, if_neg (by simp)]
    rfl

theorem isMarkDiff_withSchemas {catalog : Catalog} {tree : Tree}
    (single : '\n' ∉ (markerOf catalog tree).qualifier.toList) :
    IsMarkDiff catalog tree (withSchemas catalog tree)
      ((markerOf catalog tree).treeDiff tree (newImports catalog tree)) where
  isDiff := by
    rw [withSchemas_eq_extend]
    exact (markerOf catalog tree).isDiff_treeDiff tree (newImports catalog tree)
  added := filterMap_added?_treeDiff single
  marks place mark inserted := by
    obtain ⟨qualifier, d, schema, visible, here, due, rfl⟩ :=
      markInserted_withSchemas_iff.mp inserted
    have marker : markerOf catalog tree = ⟨catalog, qualifier⟩ := by rw [markerOf, visible]
    have new : (markerOf catalog tree).newMarks d = [schemaMark qualifier schema] := by
      rw [marker, Marker.newMarks_of_mark _ due]
    have line : '\n' ∉ (schemaMark qualifier schema).text := by
      apply newline_notMem_newMarks single (d := d)
      rw [new]
      exact List.mem_singleton_self _
    obtain ⟨number, rest, mark, next, count⟩ := (markerOf catalog tree).exists_markLine
      (newImports catalog tree) here new line
    rw [← withSchemas_eq_extend] at count
    have begins := exists_text_eq (typeDef_withSchemas catalog visible here)
    rw [Marker.statement_markTypeDef] at begins
    rw [qualifier?_ofImports] at visible
    exact ⟨d, number, here,
      ⟨qualifier, schema, visible, verdict_eq_mark_iff_isDue.mp due,
        text_schemaMark qualifier schema⟩,
      mark, ⟨rest, next⟩, begins, count⟩

theorem onlyAddsLines_withSchemas (catalog : Catalog) (tree : Tree) :
    OnlyAddsLines catalog tree (withSchemas catalog tree) := by
  have plain (single : ∀ qualifier ∈ markQualifier? tree.imports, '\n' ∉ qualifier.toList) :
      '\n' ∉ (markerOf catalog tree).qualifier.toList := by
    rw [← qualifier?_ofImports] at single
    unfold markerOf
    split
    · simp
    · exact single _ ‹_›
  constructor
  · rw [withSchemas_eq_extend]
    exact ((markerOf catalog tree).isDiff_treeDiff tree (newImports catalog tree)).sublist
  · rw [importAdded_withSchemas_iff, withSchemas_eq_extend, newImports, Marker.extend]
    split
    · exact Or.inl rfl
    · exact Or.inr (List.append_nil _)
  · intro single
    have diff := isMarkDiff_withSchemas (plain single)
    rw [diff.isDiff.length_eq, diff.added, List.length_append, List.length_map, importLines]
    by_cases added : ImportAdded tree (withSchemas catalog tree)
    · by_cases first : tree.imports = []
      · simp only [added, first, if_true, and_self, List.length_cons, List.length_nil]
        omega
      · simp only [added, first, if_true, if_false, and_false, List.length_cons, List.length_nil]
        omega
    · simp only [added, if_false, false_and, List.length_nil]
      omega
  · intro single
    exact ⟨_, isMarkDiff_withSchemas (plain single)⟩

/-- All that the pass does to the texts of documents with distinct keys is to add lines. -/
theorem modifyDocuments_onlyAddsLines (module : String) (catalog : Catalog)
    {entries : Keyed DocumentKey Document} (distinct : (Keyed.keys entries).Nodup) :
    List.Forall₂
      (fun entry modified =>
        modified.key = entry.1 ∧ OnlyAddsLines catalog entry.2.tree modified.tree)
      entries (modifyDocuments module catalog [] entries).1 := by
  rw [modifyDocuments_eq_map distinct (by simp), List.forall₂_map_right_iff, List.forall₂_same]
  intro entry _
  exact ⟨rfl, onlyAddsLines_withSchemas catalog entry.2.tree⟩

theorem modifyDocuments_onlyAddsLines_specimen :
    (Keyed.keys Specimen.app.keyedDocuments).Nodup ∧
      (∀ qualifier ∈ markQualifier? Specimen.definer.tree.imports, '\n' ∉ qualifier.toList) ∧
      List.Forall₂
        (fun entry modified =>
          modified.key = entry.1 ∧ OnlyAddsLines Specimen.catalog entry.2.tree modified.tree)
        Specimen.app.keyedDocuments
        (modifyDocuments "app" Specimen.catalog [] Specimen.app.keyedDocuments).1 := by
  have distinct : (Keyed.keys Specimen.app.keyedDocuments).Nodup := by decide
  exact ⟨distinct, by decide, modifyDocuments_onlyAddsLines "app" Specimen.catalog distinct⟩

end SchemaWeaver
