import SchemaWeaver.Pass
import SchemaWeaver.Proofs.Marking

/-!
What the pass does to the documents of a module when their keys tell them apart: the tree of each is
changed by `withSchemas`, which looks at that tree and the catalog alone. The keys of the documents
that require an import are shared by all documents of a module, so this is where it is shown that
nothing passes from one document to another. Adding schemas twice is adding them once, and the calls
in a document stay.
-/

set_option autoImplicit false
set_option relaxedAutoImplicit false

namespace SchemaWeaver

open Source (AiImport Import Tree)

/-- A document after the schemas of a catalog were added to it and, if that needs it, the import of
the mark's module. -/
def withSchemas (catalog : Catalog) (tree : Tree) : Tree :=
  match (AiImport.ofImports tree.imports).qualifier? with
  | none => tree
  | some qualifier =>
      let marker : Marker := ⟨catalog, qualifier⟩
      (marker.markTree tree).ensureAiImport (decide (marker.insertions tree > 0))

def modifiedWith (module : String) (catalog : Catalog) (entry : DocumentKey × Document) :
    ModifiedDocument :=
  ⟨module, entry.1, withSchemas catalog entry.2.tree,
    decide (withSchemas catalog entry.2.tree ≠ entry.2.tree)⟩

@[simp]
theorem ensureAiImport_false (tree : Tree) : tree.ensureAiImport false = tree := by
  simp [Tree.ensureAiImport]

/-- A document whose key was not met before is modified as if it were alone, and at most its own key
is added to those that require an import. -/
theorem modifyDocument_of_not_mem (module : String) (catalog : Catalog) (d : Document)
    {required : List DocumentKey} {key : DocumentKey} (fresh : key ∉ required) :
    (modifyDocument module catalog required key d).document = modifiedWith module catalog (key, d) ∧
      ∀ k ∈ (modifyDocument module catalog required key d).required, k = key ∨ k ∈ required := by
  unfold modifyDocument modifiedWith withSchemas
  cases name : (AiImport.ofImports d.tree.imports).qualifier? with
  | none =>
      simp only [name, fresh, decide_false, ensureAiImport_false, true_and]
      exact fun k member => Or.inr member
  | some qualifier =>
      by_cases positive : Marker.insertions ⟨catalog, qualifier⟩ d.tree > 0
      · simp only [name, positive, if_true, List.mem_cons_self, decide_true, true_and]
        exact fun k member => List.mem_cons.mp member
      · simp only [name, positive, if_false, fresh, decide_false, ensureAiImport_false, true_and]
        exact fun k member => Or.inr member

theorem modifyDocuments_eq_map {module : String} {catalog : Catalog}
    {entries : Keyed DocumentKey Document} (distinct : (Keyed.keys entries).Nodup)
    {required : List DocumentKey} (fresh : ∀ key ∈ Keyed.keys entries, key ∉ required) :
    (modifyDocuments module catalog required entries).1 =
      entries.map (modifiedWith module catalog) := by
  induction entries generalizing required with
  | nil => rfl
  | cons entry entries ih =>
      obtain ⟨key, d⟩ := entry
      obtain ⟨first, distinct⟩ := List.nodup_cons.mp distinct
      obtain ⟨document, grown⟩ := modifyDocument_of_not_mem module catalog d
        (fresh key List.mem_cons_self)
      have later : ∀ k ∈ Keyed.keys entries,
          k ∉ (modifyDocument module catalog required key d).required := by
        intro k member required
        rcases grown k required with rfl | old
        · exact first member
        · exact fresh k (List.mem_cons_of_mem _ member) old
      simp only [modifyDocuments, List.map_cons]
      rw [document, ih distinct later]

theorem imports_ensureAiImport (tree : Tree) (required : Bool) :
    (tree.ensureAiImport required).imports =
      if required = true ∧ AiImport.ofImports tree.imports = .absent then
        tree.imports ++ [AiImport.declaration]
      else tree.imports := by
  unfold Tree.ensureAiImport
  by_cases needed : required = true ∧ AiImport.ofImports tree.imports = .absent
  · rw [if_pos needed, if_pos (by simp [needed])]
  · rw [if_neg needed, if_neg (by simpa using needed)]

theorem imports_withSchemas (catalog : Catalog) {tree : Tree} {qualifier : String}
    (visible : (AiImport.ofImports tree.imports).qualifier? = some qualifier) :
    (withSchemas catalog tree).imports =
      if 0 < Marker.insertions ⟨catalog, qualifier⟩ tree ∧
          AiImport.ofImports tree.imports = .absent then
        tree.imports ++ [AiImport.declaration]
      else tree.imports := by
  simp only [withSchemas, visible, imports_ensureAiImport, decide_eq_true_eq, gt_iff_lt]
  rfl

/-- Importing the mark's module under its own name where it was not imported keeps the name that
marks are written with. -/
theorem qualifier?_append_declaration {imports : List Import}
    (absent : AiImport.ofImports imports = .absent) :
    (AiImport.ofImports (imports ++ [AiImport.declaration])).qualifier? =
      (AiImport.ofImports imports).qualifier? := by
  have missing : imports.find? AiImport.isDeclaredBy = none := by
    unfold AiImport.ofImports at absent
    cases found : imports.find? AiImport.isDeclaredBy with
    | none => rfl
    | some i =>
        simp only [found] at absent
        split at absent
        · cases absent
        · split at absent <;> cases absent
  have declared : AiImport.isDeclaredBy AiImport.declaration = true := by decide
  rw [absent, AiImport.ofImports, List.find?_append, missing]
  simp only [Option.none_or, List.find?_singleton, declared, if_true]
  rfl

theorem qualifier?_withSchemas (catalog : Catalog) (tree : Tree) :
    (AiImport.ofImports (withSchemas catalog tree).imports).qualifier? =
      (AiImport.ofImports tree.imports).qualifier? := by
  cases visible : (AiImport.ofImports tree.imports).qualifier? with
  | none => rw [withSchemas, visible, visible]
  | some qualifier =>
      rw [imports_withSchemas catalog visible]
      split
      · rename_i needed
        rw [qualifier?_append_declaration needed.2, visible]
      · exact visible

theorem members_ensureAiImport (tree : Tree) (required : Bool) :
    (tree.ensureAiImport required).members = tree.members := by
  unfold Tree.ensureAiImport
  split <;> rfl

theorem members_withSchemas (catalog : Catalog) {tree : Tree} {qualifier : String}
    (visible : (AiImport.ofImports tree.imports).qualifier? = some qualifier) :
    (withSchemas catalog tree).members = (Marker.markTree ⟨catalog, qualifier⟩ tree).members := by
  simp only [withSchemas, visible, members_ensureAiImport]

theorem insertions_withSchemas (catalog : Catalog) {tree : Tree} {qualifier : String}
    (visible : (AiImport.ofImports tree.imports).qualifier? = some qualifier) :
    Marker.insertions ⟨catalog, qualifier⟩ (withSchemas catalog tree) = 0 := by
  have none := Marker.insertions_markTree ⟨catalog, qualifier⟩ tree
  unfold Marker.insertions Tree.typeDefs at none ⊢
  rwa [members_withSchemas catalog visible]

theorem withSchemas_withSchemas (catalog : Catalog) (tree : Tree) :
    withSchemas catalog (withSchemas catalog tree) = withSchemas catalog tree := by
  have names := qualifier?_withSchemas catalog tree
  cases visible : (AiImport.ofImports tree.imports).qualifier? with
  | none =>
      rw [visible] at names
      rw [withSchemas, names]
  | some qualifier =>
      rw [visible] at names
      have none := insertions_withSchemas catalog visible
      rw [withSchemas, names]
      simp only [none, gt_iff_lt, Nat.lt_irrefl, decide_false, ensureAiImport_false]
      exact (Marker.markTree_eq_self_iff _).mpr none

theorem calls_withSchemas (catalog : Catalog) (tree : Tree) :
    (withSchemas catalog tree).calls = tree.calls := by
  cases visible : (AiImport.ofImports tree.imports).qualifier? with
  | none => rw [withSchemas, visible]
  | some qualifier =>
      have marked := Marker.calls_markTree ⟨catalog, qualifier⟩ tree
      rw [Tree.calls_eq_flatMap] at marked ⊢
      rwa [members_withSchemas catalog visible]

end SchemaWeaver
