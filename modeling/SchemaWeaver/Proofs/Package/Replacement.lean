import SchemaWeaver.Package
import Mathlib.Data.List.Nodup

/-!
What it means to put modified documents in the place of the present ones, in a package whose modules
and documents can be told apart: every document keeps its place, its identifier and its name, and
its tree becomes the modified one, if there is one.
-/

set_option autoImplicit false
set_option relaxedAutoImplicit false

namespace SchemaWeaver

open Source (Tree)

/-- The names tell the modules of a package apart, and the keys the documents of each module. -/
structure Package.IsKeyed (p : Package) : Prop where
  modules : (p.modules.map Module.name).Nodup
  documents : ∀ m ∈ p.modules, (Keyed.keys m.keyedDocuments).Nodup

instance (p : Package) : Decidable p.IsKeyed :=
  decidable_of_iff
    ((p.modules.map Module.name).Nodup ∧ ∀ m ∈ p.modules, (Keyed.keys m.keyedDocuments).Nodup)
    ⟨fun both => ⟨both.1, both.2⟩, fun keyed => ⟨keyed.modules, keyed.documents⟩⟩

namespace Module

def mapTrees (change : DocumentKey → Tree → Tree) (m : Module) : Module :=
  { m with
    documents := m.documents.map fun d => { d with tree := change ⟨.source, d.id⟩ d.tree }
    tests := m.tests.map fun d => { d with tree := change ⟨.test, d.id⟩ d.tree } }

@[simp]
theorem mapTrees_name (change : DocumentKey → Tree → Tree) (m : Module) :
    (m.mapTrees change).name = m.name := rfl

theorem keyedDocuments_mapTrees (change : DocumentKey → Tree → Tree) (m : Module) :
    (m.mapTrees change).keyedDocuments =
      m.keyedDocuments.map fun entry =>
        (entry.1, { entry.2 with tree := change entry.1 entry.2.tree }) := by
  simp only [keyedDocuments, mapTrees, List.map_append, List.map_map, Function.comp_def]

@[simp]
theorem keys_mapTrees (change : DocumentKey → Tree → Tree) (m : Module) :
    Keyed.keys (m.mapTrees change).keyedDocuments = Keyed.keys m.keyedDocuments := by
  simp only [keyedDocuments_mapTrees, Keyed.keys, List.map_map, Function.comp_def]

theorem mapTrees_mapTrees (first second : DocumentKey → Tree → Tree) (m : Module) :
    (m.mapTrees first).mapTrees second =
      m.mapTrees fun key tree => second key (first key tree) := by
  simp only [mapTrees, List.map_map, Function.comp_def]

theorem mapTrees_congr {first second : DocumentKey → Tree → Tree} {m : Module}
    (agree : ∀ entry ∈ m.keyedDocuments, first entry.1 entry.2.tree = second entry.1 entry.2.tree) :
    m.mapTrees first = m.mapTrees second := by
  unfold mapTrees
  congr 1
  · refine List.map_congr_left fun d member => ?_
    rw [agree (⟨.source, d.id⟩, d)
      (List.mem_append_left _ (List.mem_map.mpr ⟨d, member, rfl⟩))]
  · refine List.map_congr_left fun d member => ?_
    rw [agree (⟨.test, d.id⟩, d)
      (List.mem_append_right _ (List.mem_map.mpr ⟨d, member, rfl⟩))]

theorem mapTrees_eq_self {change : DocumentKey → Tree → Tree} {m : Module}
    (alone : ∀ entry ∈ m.keyedDocuments, change entry.1 entry.2.tree = entry.2.tree) :
    m.mapTrees change = m := by
  have same : m.mapTrees change = m.mapTrees fun _ tree => tree := mapTrees_congr alone
  rw [same]
  simp only [mapTrees, List.map_id']

private theorem replaceTree_of_not_mem {id : Nat} {tree : Tree} {ds : List Document}
    (missing : id ∉ ds.map Document.id) : replaceTree id tree ds = ds := by
  induction ds with
  | nil => rfl
  | cons d ds ih =>
      simp only [List.map_cons, List.mem_cons, not_or] at missing
      rw [replaceTree, if_neg (Ne.symm missing.1), ih missing.2]

private theorem replaceTree_eq_map {id : Nat} {tree : Tree} {ds : List Document}
    (distinct : (ds.map Document.id).Nodup) :
    replaceTree id tree ds =
      ds.map fun d => { d with tree := if d.id = id then tree else d.tree } := by
  induction ds with
  | nil => rfl
  | cons d ds ih =>
      obtain ⟨fresh, distinct⟩ := List.nodup_cons.mp distinct
      by_cases same : d.id = id
      · -- No later document has this identifier, so replacing the first one replaces all.
        have rest : replaceTree id tree ds = ds := replaceTree_of_not_mem (same ▸ fresh)
        rw [ih distinct] at rest
        simp only [replaceTree, List.map_cons, if_pos same, rest]
      · simp only [replaceTree, List.map_cons, if_neg same, ih distinct]

private theorem nodup_ids {m : Module} (distinct : (Keyed.keys m.keyedDocuments).Nodup) :
    (m.documents.map Document.id).Nodup ∧ (m.tests.map Document.id).Nodup := by
  simp only [Keyed.keys, keyedDocuments, List.map_append, List.map_map] at distinct
  obtain ⟨sources, tests, -⟩ := List.nodup_append.mp distinct
  constructor
  · refine List.Nodup.of_map (fun id => (⟨.source, id⟩ : DocumentKey)) ?_
    rw [List.map_map]
    exact sources
  · refine List.Nodup.of_map (fun id => (⟨.test, id⟩ : DocumentKey)) ?_
    rw [List.map_map]
    exact tests

theorem setTree_eq_mapTrees {m : Module} (distinct : (Keyed.keys m.keyedDocuments).Nodup)
    (key : DocumentKey) (tree : Tree) :
    m.setTree key tree = m.mapTrees fun k t => if k = key then tree else t := by
  obtain ⟨sources, tests⟩ := nodup_ids distinct
  obtain ⟨kind, id⟩ := key
  cases kind with
  | source => simp [setTree, mapTrees, replaceTree_eq_map sources]
  | test => simp [setTree, mapTrees, replaceTree_eq_map tests]

end Module

namespace Package

private theorem setTree_of_not_mem {name : String} {key : DocumentKey} {tree : Tree}
    {modules : List Module} (missing : name ∉ modules.map Module.name) :
    setTree name key tree modules = modules := by
  induction modules with
  | nil => rfl
  | cons m modules ih =>
      simp only [List.map_cons, List.mem_cons, not_or] at missing
      rw [setTree, if_neg (Ne.symm missing.1), ih missing.2]

private theorem setTree_eq_map {p : Package} (keyed : p.IsKeyed) (name : String)
    (key : DocumentKey) (tree : Tree) :
    setTree name key tree p.modules =
      p.modules.map fun m => m.mapTrees fun k t => if m.name = name ∧ k = key then tree else t := by
  obtain ⟨modules⟩ := p
  obtain ⟨distinct, documents⟩ := keyed
  induction modules with
  | nil => rfl
  | cons m modules ih =>
      obtain ⟨fresh, distinct⟩ := List.nodup_cons.mp distinct
      have rest := ih distinct fun m member => documents m (List.mem_cons_of_mem _ member)
      by_cases same : m.name = name
      · have unchanged : setTree name key tree modules = modules :=
          setTree_of_not_mem (same ▸ fresh)
        rw [unchanged] at rest
        have first := Module.setTree_eq_mapTrees (documents m List.mem_cons_self) key tree
        rw [setTree, if_pos same, List.map_cons, ← rest, first]
        simp only [same, true_and]
      · have first : (m.mapTrees fun k t => if m.name = name ∧ k = key then tree else t) = m :=
          Module.mapTrees_eq_self fun _ _ => if_neg fun both => same both.1
        simp only [setTree, if_neg same, List.map_cons, first]
        exact congrArg (m :: ·) rest

theorem IsKeyed.mapTrees {p : Package} (keyed : p.IsKeyed)
    (change : Module → DocumentKey → Tree → Tree) :
    IsKeyed ⟨p.modules.map fun m => m.mapTrees (change m)⟩ := by
  refine ⟨?_, ?_⟩
  · simpa only [List.map_map, Function.comp_def, Module.mapTrees_name] using keyed.modules
  · intro m member
    obtain ⟨original, found, rfl⟩ := List.mem_map.mp member
    rw [Module.keys_mapTrees]
    exact keyed.documents original found

/-- The tree that a document with a key has after some modified documents were put in place. The
last one with the key decides. -/
private def latest (module : String) (key : DocumentKey) (ds : List ModifiedDocument)
    (tree : Tree) : Tree :=
  ds.foldl (fun t d => if module = d.module ∧ key = d.key then d.tree else t) tree

private theorem foldl_setTree (ds : List ModifiedDocument) {p : Package} (keyed : p.IsKeyed) :
    ds.foldl (fun modules d => setTree d.module d.key d.tree modules) p.modules =
      p.modules.map fun m => m.mapTrees fun key tree => latest m.name key ds tree := by
  induction ds generalizing p with
  | nil =>
      have alone (m : Module) : (m.mapTrees fun key tree => latest m.name key [] tree) = m :=
        Module.mapTrees_eq_self fun _ _ => rfl
      simp only [List.foldl_nil, alone, List.map_id']
  | cons d ds ih =>
      rw [List.foldl_cons, setTree_eq_map keyed]
      rw [ih (p := ⟨_⟩) (keyed.mapTrees _)]
      simp only [List.map_map, Function.comp_def, Module.mapTrees_mapTrees, Module.mapTrees_name,
        latest, List.foldl_cons]
      rfl

private theorem latest_of_not_mem {module : String} {key : DocumentKey}
    {ds : List ModifiedDocument} (missing : (module, key) ∉ ds.map fun d => (d.module, d.key))
    (tree : Tree) : latest module key ds tree = tree := by
  induction ds with
  | nil => rfl
  | cons d ds ih =>
      simp only [List.map_cons, List.mem_cons, not_or, Prod.mk.injEq] at missing
      rw [latest, List.foldl_cons, if_neg missing.1]
      exact ih missing.2

private theorem latest_eq_find? {ds : List ModifiedDocument}
    (distinct : (ds.map fun d => (d.module, d.key)).Nodup) (module : String) (key : DocumentKey)
    (tree : Tree) :
    latest module key ds tree =
      ((ds.find? fun d => d.module = module && d.key = key).map
        ModifiedDocument.tree).getD tree := by
  induction ds generalizing tree with
  | nil => rfl
  | cons d ds ih =>
      obtain ⟨fresh, distinct⟩ := List.nodup_cons.mp distinct
      by_cases same : module = d.module ∧ key = d.key
      · obtain ⟨rfl, rfl⟩ := same
        have rest := latest_of_not_mem fresh d.tree
        simpa [latest] using rest
      · have different : (decide (d.module = module) && decide (d.key = key)) = false := by
          simp only [Bool.and_eq_false_iff, decide_eq_false_iff_not]
          by_contra both
          simp only [not_or, not_not] at both
          exact same ⟨both.1.symm, both.2.symm⟩
        rw [latest, List.foldl_cons, if_neg same, List.find?_cons_of_neg (by simp [different])]
        exact ih distinct tree

/-- Applying a modification without two documents for one place changes each tree that it has a
document for, and nothing else. -/
theorem apply_eq_mapTrees {p : Package} (keyed : p.IsKeyed) {modification : Modification}
    (distinct : (modification.documents.map fun d => (d.module, d.key)).Nodup) :
    p.apply modification =
      ⟨p.modules.map fun m => m.mapTrees fun key tree =>
        ((modification.document? m.name key).map ModifiedDocument.tree).getD tree⟩ := by
  unfold apply
  rw [foldl_setTree modification.documents keyed]
  simp only [latest_eq_find? distinct, Modification.document?]

end Package

theorem find?_eq_some_of_nodup {α κ : Type} (key : α → κ) {test : α → Bool} {items : List α}
    (distinct : (items.map key).Nodup) {a : α} (member : a ∈ items) (passes : test a = true)
    (tells : ∀ b, test b = true → key b = key a) : items.find? test = some a := by
  cases found : items.find? test with
  | none =>
      rw [List.find?_eq_none] at found
      exact absurd passes (found a member)
  | some b =>
      have same := tells b (List.find?_some found)
      rw [List.inj_on_of_nodup_map distinct (List.mem_of_find?_eq_some found) member same]

theorem Package.module?_eq_some {p : Package} (keyed : p.IsKeyed) {m : Module}
    (member : m ∈ p.modules) : p.module? m.name = some m :=
  find?_eq_some_of_nodup Module.name keyed.modules member (by simp) fun _ passes => by
    simpa using passes

theorem Module.document?_eq_some {m : Module} (distinct : (Keyed.keys m.keyedDocuments).Nodup)
    {entry : DocumentKey × Document} (member : entry ∈ m.keyedDocuments) :
    m.document? entry.1 = some entry.2 := by
  obtain ⟨sources, tests⟩ := nodup_ids distinct
  rcases List.mem_append.mp member with found | found
  · obtain ⟨d, there, rfl⟩ := List.mem_map.mp found
    exact find?_eq_some_of_nodup Document.id sources there (by simp) fun _ passes => by
      simpa using passes
  · obtain ⟨d, there, rfl⟩ := List.mem_map.mp found
    exact find?_eq_some_of_nodup Document.id tests there (by simp) fun _ passes => by
      simpa using passes

theorem Modification.document?_eq_some {modification : Modification}
    (distinct : (modification.documents.map fun d => (d.module, d.key)).Nodup)
    {d : ModifiedDocument} (member : d ∈ modification.documents) :
    modification.document? d.module d.key = some d := by
  refine find?_eq_some_of_nodup (fun d => (d.module, d.key)) distinct member (by simp) ?_
  intro other passes
  simpa using passes

end SchemaWeaver
