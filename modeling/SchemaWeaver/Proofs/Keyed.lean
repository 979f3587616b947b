import SchemaWeaver.Json.Basic
import Mathlib.Data.List.Basic

/-!
Reading what was written under keys. Writing an entry that is there already changes nothing, and
writing under a new key adds an entry at the end. Keeping the entries under some keys keeps their
order.
-/

set_option autoImplicit false
set_option relaxedAutoImplicit false

namespace SchemaWeaver

theorem all_attach {α : Type} (items : List α) (test : α → Bool) :
    (items.attach.all fun item => test item.1) = items.all test := by
  simp

namespace Keyed

variable {κ α : Type} [DecidableEq κ]

theorem get?_insert_self (entries : Keyed κ α) (key : κ) (a : α) :
    get? (insert entries key a) key = some a := by
  induction entries with
  | nil => simp [insert, get?]
  | cons entry rest ih =>
      obtain ⟨k, b⟩ := entry
      by_cases same : k = key
      · simp [insert, get?, same]
      · simpa [insert, get?, same] using ih

theorem insert_of_get?_eq_some {entries : Keyed κ α} {key : κ} {a : α}
    (found : get? entries key = some a) : insert entries key a = entries := by
  induction entries with
  | nil => cases found
  | cons entry rest ih =>
      obtain ⟨k, b⟩ := entry
      by_cases same : k = key
      · obtain rfl : b = a := by simpa [get?, same] using found
        rw [insert, if_pos same]
      · rw [get?, if_neg same] at found
        rw [insert, if_neg same, ih found]

theorem insert_of_get?_eq_none {entries : Keyed κ α} {key : κ} (missing : get? entries key = none)
    (a : α) : insert entries key a = entries ++ [(key, a)] := by
  induction entries with
  | nil => rfl
  | cons entry rest ih =>
      obtain ⟨k, b⟩ := entry
      by_cases same : k = key
      · simp [get?, same] at missing
      · rw [get?, if_neg same] at missing
        rw [insert, if_neg same, ih missing, List.cons_append]

theorem exists_get?_of_mem {entries : Keyed κ α} {key : κ} {a : α} (member : (key, a) ∈ entries) :
    ∃ b, get? entries key = some b := by
  induction entries with
  | nil => cases member
  | cons entry rest ih =>
      obtain ⟨k, b⟩ := entry
      by_cases same : k = key
      · exact ⟨b, by rw [get?, if_pos same]⟩
      · rw [get?, if_neg same]
        rcases List.mem_cons.mp member with first | later
        · cases first
          exact absurd rfl same
        · exact ih later

theorem get?_of_mem {entries : Keyed κ α} (distinct : (keys entries).Nodup) {key : κ} {a : α}
    (member : (key, a) ∈ entries) : get? entries key = some a := by
  induction entries with
  | nil => cases member
  | cons entry rest ih =>
      obtain ⟨k, b⟩ := entry
      obtain ⟨fresh, others⟩ := List.nodup_cons.mp distinct
      rcases List.mem_cons.mp member with first | later
      · cases first
        rw [get?, if_pos rfl]
      · have different : k ≠ key := by
          intro same
          exact fresh (List.mem_map.mpr ⟨(key, a), later, same.symm⟩)
        rw [get?, if_neg different]
        exact ih others later

theorem get?_eq_none_iff {entries : Keyed κ α} {key : κ} :
    get? entries key = none ↔ key ∉ keys entries := by
  induction entries with
  | nil => simp [get?, keys]
  | cons entry rest ih =>
      obtain ⟨k, b⟩ := entry
      by_cases same : k = key
      · simp [get?, keys, same]
      · simpa [get?, keys, same, Ne.symm same] using ih

theorem has_eq_true_iff {entries : Keyed κ α} {key : κ} :
    has entries key = true ↔ key ∈ keys entries := by
  rw [has, Option.isSome_iff_ne_none, ne_eq, get?_eq_none_iff, not_not]

theorem get?_insert (entries : Keyed κ α) (key other : κ) (a : α) :
    get? (insert entries key a) other = if other = key then some a else get? entries other := by
  induction entries with
  | nil => simp [insert, get?, eq_comm]
  | cons entry rest ih =>
      obtain ⟨k, b⟩ := entry
      by_cases same : k = key
      · subst same
        by_cases asked : other = k
        · simp [insert, get?, asked]
        · simp [insert, get?, asked, Ne.symm asked]
      · rw [insert, if_neg same, get?, ih, get?]
        by_cases here : k = other
        · subst here
          simp [same]
        · simp [here]

theorem get?_filter (kept : κ → Bool) (entries : Keyed κ α) (key : κ) :
    get? (entries.filter fun entry => kept entry.1) key =
      if kept key then get? entries key else none := by
  induction entries with
  | nil => simp [get?]
  | cons entry rest ih =>
      obtain ⟨k, b⟩ := entry
      by_cases same : k = key
      · subst same
        cases stays : kept k with
        | true => simp [stays, get?]
        | false => simpa [stays] using ih
      · cases stays : kept k with
        | true => simp [stays, get?, same, ih]
        | false => simpa [stays, get?, same] using ih

theorem get?_erase (entries : Keyed κ α) (key other : κ) :
    get? (erase entries key) other = if other = key then none else get? entries other := by
  have kept := get?_filter (fun k => decide (k ≠ key)) entries other
  rw [erase, kept]
  by_cases same : other = key <;> simp [same]

theorem erase_of_get?_eq_none {entries : Keyed κ α} {key : κ} (missing : get? entries key = none) :
    erase entries key = entries := by
  rw [get?_eq_none_iff] at missing
  refine List.filter_eq_self.mpr fun entry member => ?_
  have different : entry.1 ≠ key := by
    rintro rfl
    exact missing (List.mem_map_of_mem member)
  simpa using different

theorem keys_insert_of_get?_eq_some {entries : Keyed κ α} {key : κ} {a : α}
    (found : get? entries key = some a) (b : α) : keys (insert entries key b) = keys entries := by
  induction entries with
  | nil => cases found
  | cons entry rest ih =>
      obtain ⟨k, c⟩ := entry
      by_cases same : k = key
      · simp [insert, keys, same]
      · rw [get?, if_neg same] at found
        have later := ih found
        simp only [keys] at later
        simp [insert, keys, same, later]

theorem mem_insert {entries : Keyed κ α} {key : κ} {a : α} {entry : κ × α}
    (member : entry ∈ insert entries key a) : entry = (key, a) ∨ entry ∈ entries := by
  induction entries with
  | nil => exact Or.inl (List.mem_singleton.mp member)
  | cons first rest ih =>
      obtain ⟨k, b⟩ := first
      rw [insert] at member
      split at member
      · rename_i same
        subst same
        rcases List.mem_cons.mp member with rfl | later
        · exact Or.inl rfl
        · exact Or.inr (List.mem_cons_of_mem _ later)
      · rcases List.mem_cons.mp member with rfl | later
        · exact Or.inr List.mem_cons_self
        · exact (ih later).imp_right (List.mem_cons_of_mem _)

private theorem foldl_insert_of_nodup (entries : List (κ × α)) {written : Keyed κ α}
    (distinct : (keys (written ++ entries)).Nodup) :
    entries.foldl (fun written entry => insert written entry.1 entry.2) written =
      written ++ entries := by
  induction entries generalizing written with
  | nil => rw [List.foldl_nil, List.append_nil]
  | cons entry rest ih =>
      have missing : get? written entry.1 = none := by
        rw [get?_eq_none_iff]
        rw [keys, List.map_append, List.map_cons, List.nodup_append] at distinct
        exact fun member => distinct.2.2 _ member _ List.mem_cons_self rfl
      rw [← List.singleton_append, ← List.append_assoc] at distinct
      rw [List.foldl_cons, insert_of_get?_eq_none missing, ih distinct, List.append_assoc,
        List.singleton_append]

theorem ofList_of_nodup {entries : List (κ × α)} (distinct : (keys entries).Nodup) :
    ofList entries = entries :=
  foldl_insert_of_nodup entries (by rwa [List.nil_append])

/-- Entries with one value for each key read like any others that are the same but for the order. -/
theorem get?_eq_of_mem_iff {entries others : Keyed κ α}
    (same : ∀ key a, (key, a) ∈ entries ↔ (key, a) ∈ others)
    (unique : ∀ key a b, (key, a) ∈ entries → (key, b) ∈ entries → a = b) (key : κ) :
    get? entries key = get? others key := by
  cases found : get? entries key with
  | some a =>
      have member := mem_of_get? found
      obtain ⟨b, there⟩ := exists_get?_of_mem ((same key a).mp member)
      have back := (same key b).mpr (mem_of_get? there)
      rw [there, unique key a b member back]
  | none =>
      cases there : get? others key with
      | none => rfl
      | some b =>
          obtain ⟨a, here⟩ := exists_get?_of_mem ((same key b).mpr (mem_of_get? there))
          rw [found] at here
          cases here

end Keyed

end SchemaWeaver
