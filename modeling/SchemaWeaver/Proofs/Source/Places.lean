import SchemaWeaver.Proofs.Source.Traversal

/-!
The places of expressions in a document. A place is a list of positions: which of the expressions
that stand in the document, and then which part at each step down. The lexicographic order of places
is the order of the source, each expression before its parts, and the calls of a document are those
at all places, in this order.
-/

set_option autoImplicit false
set_option relaxedAutoImplicit false

namespace SchemaWeaver.Source

/-- The immediate parts of an expression; a call has its receiver before its arguments. -/
def Expr.children : Expr → List Expr
  | .mapping fields => fields.map Prod.snd
  | .list items => items
  | .remote c => c.receiver :: c.arguments
  | .call _ arguments => arguments
  | .check inner => [inner]
  | _ => []

def Expr.at? : Expr → List Nat → Option Expr
  | e, [] => some e
  | e, position :: place => e.children[position]?.bind fun child => child.at? place

def Tree.at? (tree : Tree) : List Nat → Option Expr
  | [] => none
  | position :: place => tree.values[position]?.bind fun e => e.at? place

/-- A list holds what stands at places, in the order of the places. -/
def InOrder {α : Type} (stands : List Nat → α → Prop) (xs : List α) : Prop :=
  ∃ sites : List (List Nat × α),
    sites.Pairwise (fun site other => List.Lex (· < ·) site.1 other.1) ∧
    (∀ place x, (place, x) ∈ sites ↔ stands place x) ∧ sites.map Prod.snd = xs

namespace InOrder

variable {α β : Type} {stands : List Nat → α → Prop} {xs : List α}

theorem congr {stands' : List Nat → α → Prop} (inOrder : InOrder stands xs)
    (same : ∀ place x, stands place x ↔ stands' place x) : InOrder stands' xs := by
  obtain ⟨sites, sorted, members, listed⟩ := inOrder
  exact ⟨sites, sorted, fun place x => (members place x).trans (same place x), listed⟩

theorem filterMap (inOrder : InOrder stands xs) (f : α → Option β) :
    InOrder (fun place y => ∃ x, stands place x ∧ f x = some y) (xs.filterMap f) := by
  obtain ⟨sites, sorted, members, rfl⟩ := inOrder
  refine ⟨sites.filterMap fun site => (f site.2).map (Prod.mk site.1), ?_, ?_, ?_⟩
  · refine sorted.filterMap _ fun site other before made makes made' makes' => ?_
    obtain ⟨y, -, rfl⟩ := Option.map_eq_some_iff.mp makes
    obtain ⟨y', -, rfl⟩ := Option.map_eq_some_iff.mp makes'
    exact before
  · intro place y
    rw [List.mem_filterMap]
    constructor
    · rintro ⟨⟨_, x⟩, member, makes⟩
      obtain ⟨y', made, same⟩ := Option.map_eq_some_iff.mp makes
      cases same
      exact ⟨x, (members _ x).mp member, made⟩
    · rintro ⟨x, here, made⟩
      exact ⟨(place, x), (members place x).mpr here, by rw [made]; rfl⟩
  · rw [List.map_filterMap, List.filterMap_map]
    refine List.filterMap_congr fun site _ => ?_
    cases made : f site.2 <;> simp [made]

theorem cons (inOrder : InOrder stands xs) (below : ∀ x, ¬stands [] x) (x : α) :
    InOrder (fun place y => place = [] ∧ y = x ∨ stands place y) (x :: xs) := by
  obtain ⟨sites, sorted, members, rfl⟩ := inOrder
  refine ⟨([], x) :: sites, List.pairwise_cons.mpr ⟨?_, sorted⟩, ?_, rfl⟩
  · rintro ⟨place, y⟩ member
    cases place with
    | nil => exact absurd ((members [] y).mp member) (below y)
    | cons position place => exact .nil
  · intro place y
    rw [List.mem_cons, members, Prod.mk.injEq]

/-- What stands in several things, each with its position in front, is in order if it is so in each
of them. The positions are counted from a first one on. -/
theorem flatMap_from {γ : Type} {stands : γ → List Nat → α → Prop} {list : γ → List α}
    {items : List γ} (each : ∀ item ∈ items, InOrder (stands item) (list item)) (first : Nat) :
    InOrder (fun place x => ∃ position item rest, place = (first + position) :: rest ∧
      items[position]? = some item ∧ stands item rest x) (items.flatMap list) := by
  induction items generalizing first with
  | nil => exact ⟨[], .nil, by simp, rfl⟩
  | cons item items ih =>
      obtain ⟨sites, sorted, members, here⟩ := each item List.mem_cons_self
      obtain ⟨laterSites, laterSorted, laterMembers, there⟩ :=
        ih (fun other member => each other (List.mem_cons_of_mem _ member)) (first + 1)
      refine ⟨sites.map (fun site => (first :: site.1, site.2)) ++ laterSites, ?_, ?_, ?_⟩
      · refine List.pairwise_append.mpr ⟨?_, laterSorted, ?_⟩
        · refine List.pairwise_map.mpr (sorted.imp fun before => ?_)
          exact .cons before
        · rintro _ member ⟨place, x⟩ later
          obtain ⟨⟨rest, y⟩, -, rfl⟩ := List.mem_map.mp member
          obtain ⟨position, _, rest', rfl, -⟩ := (laterMembers place x).mp later
          exact .rel (by omega)
      · intro place x
        rw [List.mem_append, laterMembers, List.mem_map]
        constructor
        · rintro (⟨⟨rest, y⟩, member, same⟩ | ⟨position, other, rest, rfl, found, stand⟩)
          · cases same
            exact ⟨0, item, rest, rfl, rfl, (members rest _).mp member⟩
          · refine ⟨position + 1, other, rest, ?_, found, stand⟩
            rw [Nat.add_assoc, Nat.add_comm 1]
        · rintro ⟨position, other, rest, rfl, found, stand⟩
          cases position with
          | zero =>
              obtain rfl : item = other := by simpa using found
              exact Or.inl ⟨(rest, x), (members rest x).mpr stand, rfl⟩
          | succ position =>
              refine Or.inr ⟨position, other, rest, ?_, by simpa using found, stand⟩
              rw [Nat.add_assoc, Nat.add_comm 1]
      · rw [List.map_append, there, List.map_map, List.flatMap_cons, ← here]
        rfl

theorem flatMap {γ : Type} {stands : γ → List Nat → α → Prop} {list : γ → List α}
    {items : List γ} (each : ∀ item ∈ items, InOrder (stands item) (list item)) :
    InOrder (fun place x => ∃ position item rest, place = position :: rest ∧
      items[position]? = some item ∧ stands item rest x) (items.flatMap list) := by
  have counted := flatMap_from each 0
  simp only [Nat.zero_add] at counted
  exact counted

end InOrder

namespace Expr

theorem sizeOf_lt_of_mem_children {e child : Expr} (member : child ∈ e.children) :
    sizeOf child < sizeOf e := by
  cases e with
  | mapping fields =>
      obtain ⟨⟨key, value⟩, inside, rfl⟩ := List.mem_map.mp member
      have outer := List.sizeOf_lt_of_mem inside
      simp only [Prod.mk.sizeOf_spec, mapping.sizeOf_spec] at outer ⊢
      omega
  | list items =>
      have outer := List.sizeOf_lt_of_mem (show child ∈ items from member)
      simp only [list.sizeOf_spec]
      omega
  | remote c =>
      obtain ⟨id, receiver, method, arguments⟩ := c
      simp only [remote.sizeOf_spec, RemoteCall.mk.sizeOf_spec]
      rcases List.mem_cons.mp member with rfl | inside
      · omega
      · have outer := List.sizeOf_lt_of_mem inside
        dsimp only at outer
        omega
  | call _ arguments =>
      have outer := List.sizeOf_lt_of_mem (show child ∈ arguments from member)
      simp only [call.sizeOf_spec]
      omega
  | check inner =>
      obtain rfl : child = inner := List.mem_singleton.mp member
      simp
  | name _ => cases member
  | literal _ => cases member
  | verbatim _ => cases member

theorem itemNodes_calls (items : List Expr) :
    (itemNodes items).filterMap Node.call? = items.flatMap calls := by
  induction items with
  | nil => rfl
  | cons e rest ih => rw [itemNodes, List.filterMap_append, ih, List.flatMap_cons, calls]

theorem fieldNodes_calls (fields : List (String × Expr)) :
    (fieldNodes fields).filterMap Node.call? = (fields.map Prod.snd).flatMap calls := by
  induction fields with
  | nil => rfl
  | cons field rest ih =>
      rw [fieldNodes, List.filterMap_append, ih, List.map_cons, List.flatMap_cons, calls]

theorem calls_eq (e : Expr) : e.calls = e.call?.toList ++ e.children.flatMap calls := by
  cases e with
  | mapping fields => exact fieldNodes_calls fields
  | list items => exact itemNodes_calls items
  | remote c =>
      obtain ⟨id, receiver, method, arguments⟩ := c
      have inner : (receiver.nodes ++ itemNodes arguments).filterMap Node.call? =
          receiver.calls ++ arguments.flatMap calls := by
        rw [List.filterMap_append, itemNodes_calls, calls]
      exact congrArg (List.cons ⟨id, receiver, method, arguments⟩) inner
  | call _ arguments => exact itemNodes_calls arguments
  | check inner =>
      rw [children, List.flatMap_cons, List.flatMap_nil, List.append_nil]
      rfl
  | name _ => rfl
  | literal _ => rfl
  | verbatim _ => rfl

theorem inOrder_calls (e : Expr) :
    InOrder (fun place c => e.at? place = some (.remote c)) e.calls := by
  have each : ∀ child ∈ e.children,
      InOrder (fun place c => child.at? place = some (.remote c)) child.calls :=
    fun child _member => inOrder_calls child
  have inner := InOrder.flatMap each
  rw [e.calls_eq]
  -- At the root of the expression stands the expression itself.
  cases own : e.call? with
  | none =>
      refine inner.congr fun place c => ?_
      cases place with
      | nil =>
          have other : e ≠ .remote c := by
            rintro rfl
            cases own
          simpa [at?] using other
      | cons position place => simp [at?, Option.bind_eq_some_iff]
  | some c =>
      obtain rfl : e = .remote c := by
        cases e with
        | remote c' => exact congrArg remote (Option.some.inj own)
        | _ => cases own
      refine (inner.cons (by simp) c).congr fun place c' => ?_
      cases place with
      | nil => simp [at?, eq_comm]
      | cons position place => simp [at?, Option.bind_eq_some_iff]
termination_by sizeOf e
decreasing_by exact sizeOf_lt_of_mem_children _member

end Expr

theorem Tree.inOrder_calls (tree : Tree) :
    InOrder (fun place c => tree.at? place = some (.remote c)) tree.calls := by
  rw [tree.calls_eq_values]
  refine (InOrder.flatMap fun e _ => e.inOrder_calls).congr fun place c => ?_
  cases place with
  | nil => simp [at?]
  | cons position place => simp [at?, Option.bind_eq_some_iff]

end SchemaWeaver.Source
