import SchemaWeaver.Proofs.Json.Grammar
import SchemaWeaver.Proofs.Text.Cuts
import SchemaWeaver.Source.Text

/-!
Expressions that are data: null, booleans, numbers, strings, and lists and mappings of data. Their
text can be read in one way only. The first character tells which kind of expression follows, every
escape in a string ends where it should, and whatever follows an expression in a list or a mapping
cannot be taken for a part of it. All of this stands on one line.
-/

set_option autoImplicit false
set_option relaxedAutoImplicit false

namespace SchemaWeaver.Source

open Text (isControl isDigit join)

/-- An expression that is data. A number is written as in JSON. -/
inductive IsDatum : Expr → Prop
  | null : IsDatum (.literal .null)
  | boolean (b : Bool) : IsDatum (.literal (.boolean b))
  | number {text : String} (numeral : Json.IsNumeral text.toList) :
      IsDatum (.literal (.number text))
  | string (s : String) : IsDatum (.literal (.string s))
  | list {items : List Expr} (each : ∀ e ∈ items, IsDatum e) : IsDatum (.list items)
  | mapping {fields : List (String × Expr)} (each : ∀ field ∈ fields, IsDatum field.2) :
      IsDatum (.mapping fields)

theorem itemsOfJson_eq (items : List Json) : itemsOfJson items = items.map Expr.ofJson := by
  induction items with
  | nil => rfl
  | cons v rest ih => rw [itemsOfJson, ih, List.map_cons]

theorem fieldsOfJson_eq (entries : List (String × Json)) :
    fieldsOfJson entries = entries.map fun entry => (entry.1, Expr.ofJson entry.2) := by
  induction entries with
  | nil => rfl
  | cons entry rest ih => rw [fieldsOfJson, ih, List.map_cons]

theorem isDatum_ofJson (v : Json) : IsDatum (Expr.ofJson v) := by
  induction v using Json.inductionOn with
  | null => exact .null
  | bool b => exact .boolean b
  | num n =>
      refine .number ?_
      rw [String.toList_ofList]
      exact Json.isNumeral_text n
  | str s => exact .string s
  | arr items ih =>
      rw [Expr.ofJson, itemsOfJson_eq]
      refine .list fun e member => ?_
      obtain ⟨v, inside, rfl⟩ := List.mem_map.mp member
      exact ih v inside
  | obj entries ih =>
      rw [Expr.ofJson, fieldsOfJson_eq]
      refine .mapping fun field member => ?_
      obtain ⟨entry, inside, rfl⟩ := List.mem_map.mp member
      exact ih entry inside

theorem isDatum_of_readMapping {text : List Char} {e : Expr} (read : readMapping text = .ok e) :
    IsDatum e := by
  unfold readMapping at read
  split at read
  · cases read
  · cases read
    exact isDatum_ofJson _
  · cases read

theorem Expr.itemTexts_eq (items : List Expr) : itemTexts items = items.map text := by
  induction items with
  | nil => rfl
  | cons e rest ih => rw [itemTexts, ih, List.map_cons]

def fieldText (field : String × Expr) : List Char := quoted field.1 ++ ':' :: field.2.text

theorem Expr.fieldTexts_eq (fields : List (String × Expr)) :
    fieldTexts fields = fields.map fieldText := by
  induction fields with
  | nil => rfl
  | cons field rest ih => rw [fieldTexts, ih, List.map_cons, fieldText]

/-! ## Strings -/

def escape? : List Char → Option (Char × List Char)
  | [] => none
  | c :: rest =>
      if c = 'u' then
        match rest with
        | _ :: a :: b :: c :: d :: _ :: rest =>
            (Json.hexUnit? a b c d).map fun n => (Char.ofNat n, rest)
        | _ => none
      else (Json.escapeChar? c).map fun d => (d, rest)

def letter? : List Char → Option (Char × List Char)
  | [] => none
  | c :: rest => if c = '\\' then escape? rest else some (c, rest)

private theorem hexValue?_upperHexDigit :
    ∀ n < 16, Json.hexValue? (upperHexDigit n) = some n := by
  decide

private theorem hexUnit?_upperHexDigit {n : Nat} (small : n < 160) :
    Json.hexUnit? '0' '0' (upperHexDigit (n / 16)) (upperHexDigit (n % 16)) = some n := by
  have zero : Json.hexValue? '0' = some 0 := rfl
  have high := hexValue?_upperHexDigit (n / 16) (by omega)
  have low := hexValue?_upperHexDigit (n % 16) (by omega)
  have value : ((0 * 16 + 0) * 16 + n / 16) * 16 + n % 16 = n := by omega
  simp only [Json.hexUnit?, zero, high, low, Option.bind_eq_bind, Option.bind_some, value]
  rfl

theorem lt_of_isControl {c : Char} (control : isControl c = true) : c.toNat < 160 := by
  simp only [isControl, Bool.or_eq_true, Bool.and_eq_true, decide_eq_true_eq] at control
  omega

theorem letter?_escaped (c : Char) (rest : List Char) :
    letter? (escaped c ++ rest) = some (c, rest) := by
  unfold escaped
  split_ifs with quote slash line carriage tab control
  · rw [quote]; rfl
  · rw [slash]; rfl
  · rw [line]; rfl
  · rw [carriage]; rfl
  · rw [tab]; rfl
  · have unit := hexUnit?_upperHexDigit (lt_of_isControl control)
    simp only [List.cons_append, List.nil_append, letter?, escape?, if_true, unit, Option.map_some,
      Char.ofNat_toNat]
  · rw [List.singleton_append, letter?, if_neg slash]

theorem escaped_append_inj {c d : Char} {r s : List Char}
    (same : escaped c ++ r = escaped d ++ s) : c = d ∧ r = s := by
  have read := letter?_escaped c r
  rw [same, letter?_escaped, Option.some.injEq, Prod.mk.injEq] at read
  exact ⟨read.1.symm, read.2.symm⟩

theorem escaped_append_ne_quote (c : Char) (r s : List Char) : escaped c ++ r ≠ '"' :: s := by
  unfold escaped
  split_ifs with quote <;> simp [quote]

theorem escapes_append_inj {cs ds r s : List Char}
    (same : cs.flatMap escaped ++ '"' :: r = ds.flatMap escaped ++ '"' :: s) : cs = ds ∧ r = s := by
  induction cs generalizing ds with
  | nil =>
      cases ds with
      | nil => exact ⟨rfl, (List.cons.inj same).2⟩
      | cons d ds =>
          rw [List.flatMap_cons, List.append_assoc] at same
          exact absurd same.symm (escaped_append_ne_quote d _ _)
  | cons c cs ih =>
      cases ds with
      | nil =>
          rw [List.flatMap_cons, List.append_assoc] at same
          exact absurd same (escaped_append_ne_quote c _ _)
      | cons d ds =>
          rw [List.flatMap_cons, List.flatMap_cons, List.append_assoc, List.append_assoc] at same
          obtain ⟨first, rest⟩ := escaped_append_inj same
          obtain ⟨later, after⟩ := ih rest
          exact ⟨by rw [first, later], after⟩

theorem quoted_append_inj {a b : String} {r s : List Char}
    (same : quoted a ++ r = quoted b ++ s) : a = b ∧ r = s := by
  have inner : a.toList.flatMap escaped ++ '"' :: r = b.toList.flatMap escaped ++ '"' :: s := by
    simpa [quoted] using same
  obtain ⟨letters, rest⟩ := escapes_append_inj inner
  exact ⟨String.toList_injective letters, rest⟩

/-! ## What follows an expression -/

def isClosing (c : Char) : Bool := c = ',' || c = ']' || c = '}'

/-- What may follow an expression inside another one, or nothing. -/
def Follows (cs : List Char) : Prop := ∀ c ∈ cs.head?, isClosing c = true

/-- A text that starts, and not with the end of something. -/
def Opens (cs : List Char) : Prop := ∃ c rest, cs = c :: rest ∧ isClosing c = false

theorem Opens.append_ne {cs : List Char} (opens : Opens cs) {close : Char}
    (closing : isClosing close = true) {r s : List Char} : cs ++ r ≠ close :: s := by
  obtain ⟨c, rest, rfl, other⟩ := opens
  intro same
  rw [List.cons_append, List.cons.injEq] at same
  rw [same.1, closing] at other
  cases other

/-- Two texts that are told apart by what is written, whatever follows them. -/
def Separates {α : Type} (write : α → List Char) (a b : α) : Prop :=
  ∀ r s, Follows r → Follows s → write a ++ r = write b ++ s → a = b ∧ r = s

/-- A digit, or one of the signs that numbers are written with. -/
private def isNumeric (c : Char) : Bool := isDigit c || c ∈ ['-', '+', '.', 'e', 'E']

private theorem isNumeric_of_isDigits {cs : List Char} (digits : Json.IsDigits cs) :
    ∀ c ∈ cs, isNumeric c = true := by
  intro c member
  rw [isNumeric, digits.2 c member, Bool.true_or]

private theorem isNumeric_of_isNumeral {cs : List Char} (numeral : Json.IsNumeral cs) :
    ∀ c ∈ cs, isNumeric c = true := by
  cases numeral with
  | @parts sign whole fraction exponent signed units decimals scaled =>
      simp only [List.forall_mem_append]
      refine ⟨?_, ?_, ?_, ?_⟩
      · simp only [List.mem_cons, List.not_mem_nil, or_false] at signed
        rcases signed with rfl | rfl <;> simp [isNumeric]
      · cases units with
        | zero => simp [isNumeric, isDigit]
        | leading digits _ => exact isNumeric_of_isDigits digits
      · cases decimals with
        | none => simp
        | point digits =>
            exact List.forall_mem_cons.mpr ⟨by simp [isNumeric], isNumeric_of_isDigits digits⟩
      · cases scaled with
        | none => simp
        | @power mark sign cs marked signed digits =>
            rw [List.forall_mem_cons, List.forall_mem_append]
            refine ⟨?_, ?_, isNumeric_of_isDigits digits⟩
            · simp only [List.mem_cons, List.not_mem_nil, or_false] at marked
              rcases marked with rfl | rfl <;> simp [isNumeric]
            · simp only [List.mem_cons, List.not_mem_nil, or_false] at signed
              rcases signed with rfl | rfl | rfl <;> simp [isNumeric]

private theorem ne_of_isNumeric {c d : Char} (numeric : isNumeric c = true)
    (other : isNumeric d = false) : c ≠ d := by
  rintro rfl
  rw [other] at numeric
  cases numeric

theorem isClosing_of_isNumeral {cs : List Char} (numeral : Json.IsNumeral cs) :
    ∀ c ∈ cs, isClosing c = false := by
  intro c member
  have other {d : Char} (sign : isNumeric d = false) : c ≠ d :=
    ne_of_isNumeric (isNumeric_of_isNumeral numeral c member) sign
  simp [isClosing, other (d := ',') rfl, other (d := ']') rfl, other (d := '}') rfl]

theorem append_inj_of_isClosing {cs ds r s : List Char} (left : ∀ c ∈ cs, isClosing c = false)
    (right : ∀ c ∈ ds, isClosing c = false) (after : Follows r) (after' : Follows s)
    (same : cs ++ r = ds ++ s) : cs = ds ∧ r = s := by
  have taken {text rest : List Char} (free : ∀ c ∈ text, isClosing c = false)
      (follows : Follows rest) : (text ++ rest).takeWhile (fun c => !isClosing c) = text := by
    rw [List.takeWhile_append_of_pos (by simpa using free)]
    cases rest with
    | nil => simp
    | cons c rest =>
        have closing : isClosing c = true := follows c rfl
        simp [closing]
  have front : cs = ds := by
    rw [← taken left after, same, taken right after']
  subst front
  exact ⟨rfl, List.append_cancel_left same⟩

/-! ## Elements one after the other -/

section Elements

variable {α : Type} {write : α → List Char}

theorem join_cons (first : List Char) (pieces : List (List Char)) :
    join [','] (first :: pieces) = first ++ pieces.flatMap fun piece => ',' :: piece := by
  induction pieces generalizing first with
  | nil => simp [join]
  | cons piece pieces ih => rw [join, ih, List.flatMap_cons]; rfl

/-- The elements after the first one, each with a comma before it, and the bracket that closes. -/
def closed (write : α → List Char) (later : List α) (close : Char) (rest : List Char) : List Char :=
  (later.flatMap fun a => ',' :: write a) ++ close :: rest

theorem follows_closed {close : Char} (closing : isClosing close = true) (later : List α)
    (rest : List Char) : Follows (closed write later close rest) := by
  cases later with
  | nil => simpa [Follows, closed] using closing
  | cons a later => simp [Follows, closed, isClosing]

theorem closed_inj {close : Char} (closing : isClosing close = true) (last : close ≠ ',')
    {as bs : List α} (each : ∀ a ∈ as, ∀ b ∈ bs, Separates write a b) {r s : List Char}
    (same : closed write as close r = closed write bs close s) : as = bs ∧ r = s := by
  induction as generalizing bs with
  | nil =>
      cases bs with
      | nil => exact ⟨rfl, (List.cons.inj same).2⟩
      | cons b bs => exact absurd (List.cons.inj same).1 last
  | cons a as ih =>
      cases bs with
      | nil => exact absurd (List.cons.inj same).1.symm last
      | cons b bs =>
          have inner : write a ++ closed write as close r = write b ++ closed write bs close s := by
            simpa [closed] using same
          obtain ⟨first, rest⟩ := each a List.mem_cons_self b List.mem_cons_self _ _
            (follows_closed closing as r) (follows_closed closing bs s) inner
          have others : ∀ a ∈ as, ∀ b ∈ bs, Separates write a b := fun a inAs b inBs =>
            each a (List.mem_cons_of_mem _ inAs) b (List.mem_cons_of_mem _ inBs)
          obtain ⟨later, after⟩ := ih others rest
          exact ⟨by rw [first, later], after⟩

theorem join_map_cons_append (a : α) (later : List α) (close : Char) (rest : List Char) :
    join [','] ((a :: later).map write) ++ close :: rest =
      write a ++ closed write later close rest := by
  rw [List.map_cons, join_cons, List.flatMap_map, List.append_assoc, closed]

theorem join_append_inj {close : Char} (closing : isClosing close = true) (last : close ≠ ',')
    {as bs : List α} (left : ∀ a ∈ as, Opens (write a)) (right : ∀ b ∈ bs, Opens (write b))
    (each : ∀ a ∈ as, ∀ b ∈ bs, Separates write a b) {r s : List Char}
    (same : join [','] (as.map write) ++ close :: r = join [','] (bs.map write) ++ close :: s) :
    as = bs ∧ r = s := by
  cases as with
  | nil =>
      cases bs with
      | nil => exact ⟨rfl, (List.cons.inj same).2⟩
      | cons b bs =>
          rw [join_map_cons_append] at same
          exact absurd same.symm ((right b List.mem_cons_self).append_ne closing)
  | cons a as =>
      rw [join_map_cons_append] at same
      cases bs with
      | nil => exact absurd same ((left a List.mem_cons_self).append_ne closing)
      | cons b bs =>
          rw [join_map_cons_append] at same
          obtain ⟨first, rest⟩ := each a List.mem_cons_self b List.mem_cons_self _ _
            (follows_closed closing as r) (follows_closed closing bs s) same
          have others : ∀ a ∈ as, ∀ b ∈ bs, Separates write a b := fun a inAs b inBs =>
            each a (List.mem_cons_of_mem _ inAs) b (List.mem_cons_of_mem _ inBs)
          obtain ⟨later, after⟩ := closed_inj closing last others rest
          exact ⟨by rw [first, later], after⟩

end Elements

/-! ## Expressions -/

inductive Kind where
  | null
  | boolean
  | number
  | string
  | list
  | mapping

/-- The kind of data that a text starts with, by its first character. -/
def Kind.ofFirst (c : Char) : Kind :=
  if c = 'n' then .null
  else if c = 't' ∨ c = 'f' then .boolean
  else if c = '"' then .string
  else if c = '[' then .list
  else if c = '{' then .mapping
  else .number

def Expr.kind? : Expr → Option Kind
  | .literal .null => some .null
  | .literal (.boolean _) => some .boolean
  | .literal (.number _) => some .number
  | .literal (.string _) => some .string
  | .list _ => some .list
  | .mapping _ => some .mapping
  | _ => none

private theorem IsNumeral.ne_nil {cs : List Char} (numeral : Json.IsNumeral cs) : cs ≠ [] := by
  cases numeral with
  | parts _ units _ _ => cases units <;> simp

private theorem ofFirst_of_isNumeric {c : Char} (numeric : isNumeric c = true) :
    Kind.ofFirst c = .number := by
  have other {d : Char} (sign : isNumeric d = false) : c ≠ d := ne_of_isNumeric numeric sign
  simp [Kind.ofFirst, other (d := 'n') rfl, other (d := 't') rfl, other (d := 'f') rfl,
    other (d := '"') rfl, other (d := '[') rfl, other (d := '{') rfl]

/-- The first character of data tells its kind, and it ends nothing. -/
theorem IsDatum.exists_text_eq_cons {e : Expr} (datum : IsDatum e) :
    ∃ c rest, e.text = c :: rest ∧ e.kind? = some (Kind.ofFirst c) ∧ isClosing c = false := by
  cases datum with
  | null => exact ⟨_, _, rfl, rfl, rfl⟩
  | boolean b => cases b <;> exact ⟨_, _, rfl, rfl, rfl⟩
  | @number text numeral =>
      obtain ⟨c, rest, same⟩ := List.exists_cons_of_ne_nil (IsNumeral.ne_nil numeral)
      have member : c ∈ text.toList := by rw [same]; exact List.mem_cons_self
      refine ⟨c, rest, same, ?_, isClosing_of_isNumeral numeral c member⟩
      rw [ofFirst_of_isNumeric (isNumeric_of_isNumeral numeral c member)]
      rfl
  | string s => exact ⟨_, _, rfl, rfl, rfl⟩
  | list _ => exact ⟨_, _, rfl, rfl, rfl⟩
  | mapping _ => exact ⟨_, _, rfl, rfl, rfl⟩

theorem IsDatum.opens {e : Expr} (datum : IsDatum e) : Opens e.text := by
  obtain ⟨c, rest, same, -, free⟩ := datum.exists_text_eq_cons
  exact ⟨c, rest, same, free⟩

theorem opens_fieldText (field : String × Expr) : Opens (fieldText field) :=
  ⟨'"', _, rfl, rfl⟩

theorem IsDatum.kind?_eq {a b : Expr} (left : IsDatum a) (right : IsDatum b) {r s : List Char}
    (same : a.text ++ r = b.text ++ s) : a.kind? = b.kind? := by
  obtain ⟨c, rest, textA, kindA, -⟩ := left.exists_text_eq_cons
  obtain ⟨d, rest', textB, kindB, -⟩ := right.exists_text_eq_cons
  rw [textA, textB, List.cons_append, List.cons_append, List.cons.injEq] at same
  rw [kindA, kindB, same.1]

theorem separates_fieldText {field other : String × Expr}
    (values : Separates Expr.text field.2 other.2) : Separates fieldText field other := by
  intro r s after after' same
  rw [fieldText, fieldText, List.append_assoc, List.append_assoc] at same
  obtain ⟨keys, rest⟩ := quoted_append_inj same
  obtain ⟨value, tail⟩ := values r s after after' (List.cons.inj rest).2
  exact ⟨Prod.ext keys value, tail⟩

/-- Data are told apart by their texts, whatever follows them. -/
theorem IsDatum.separates {a b : Expr} (left : IsDatum a) (right : IsDatum b) :
    Separates Expr.text a b := by
  induction left generalizing b with
  | null =>
      intro r s _ _ same
      have kinds := IsDatum.null.kind?_eq right same
      cases right with
      | null => exact ⟨rfl, List.append_cancel_left same⟩
      | _ => cases kinds
  | boolean v =>
      intro r s _ _ same
      have kinds := (IsDatum.boolean v).kind?_eq right same
      cases right with
      | boolean w =>
          cases v <;> cases w
          · exact ⟨rfl, List.append_cancel_left same⟩
          · cases (List.cons.inj same).1
          · cases (List.cons.inj same).1
          · exact ⟨rfl, List.append_cancel_left same⟩
      | _ => cases kinds
  | @number text numeral =>
      intro r s after after' same
      have kinds := (IsDatum.number numeral).kind?_eq right same
      cases right with
      | number numeral' =>
          obtain ⟨texts, rest⟩ := append_inj_of_isClosing (isClosing_of_isNumeral numeral)
            (isClosing_of_isNumeral numeral') after after' same
          exact ⟨by rw [String.toList_injective texts], rest⟩
      | _ => cases kinds
  | string v =>
      intro r s _ _ same
      have kinds := (IsDatum.string v).kind?_eq right same
      cases right with
      | string w =>
          obtain ⟨texts, rest⟩ := quoted_append_inj same
          exact ⟨by rw [texts], rest⟩
      | _ => cases kinds
  | @list items each ih =>
      intro r s _ _ same
      have kinds := (IsDatum.list each).kind?_eq right same
      cases right with
      | @list items' each' =>
          rw [Expr.text_list, Expr.text_list, Expr.itemTexts_eq, Expr.itemTexts_eq,
            List.append_assoc, List.append_assoc] at same
          obtain ⟨elements, rest⟩ := join_append_inj rfl (by decide)
            (fun e member => (each e member).opens) (fun e member => (each' e member).opens)
            (fun e member e' member' => ih e member (each' e' member')) (List.cons.inj same).2
          exact ⟨by rw [elements], rest⟩
      | _ => cases kinds
  | @mapping fields each ih =>
      intro r s _ _ same
      have kinds := (IsDatum.mapping each).kind?_eq right same
      cases right with
      | @mapping fields' each' =>
          rw [Expr.text_mapping, Expr.text_mapping, Expr.fieldTexts_eq, Expr.fieldTexts_eq,
            List.append_assoc, List.append_assoc] at same
          obtain ⟨elements, rest⟩ := join_append_inj rfl (by decide)
            (fun field _ => opens_fieldText field) (fun field _ => opens_fieldText field)
            (fun field member field' member' =>
              separates_fieldText (ih field member (each' field' member')))
            (List.cons.inj same).2
          exact ⟨by rw [elements], rest⟩
      | _ => cases kinds

/-- Data with the same text are the same, and every mapping literal that can be read is data. -/
theorem text_unambiguous :
    (∀ a b : Expr, IsDatum a → IsDatum b → a.text = b.text → a = b) ∧
      ∀ (text : List Char) (e : Expr), readMapping text = .ok e → IsDatum e := by
  refine ⟨fun a b left right same => ?_, fun text e => isDatum_of_readMapping⟩
  have nothing : Follows [] := by simp [Follows]
  exact (left.separates right [] [] nothing nothing (by rw [same])).1

def loosely : List Char := "\x7b \"a\\u0001\" : [ -15 , \"\\u007d,\" , \x7b \x7d ] \x7d".toList

def tightly : List Char := "\x7b\"a\\u0001\":[-15,\"\x7d,\",\x7b\x7d]\x7d".toList

theorem text_unambiguous_spellings :
    ∃ a b, readMapping loosely = .ok a ∧ readMapping tightly = .ok b ∧ a.text = b.text ∧
      a.text = "\x7b\"a\\u\x7b0001\x7d\":[-15,\"\x7d,\",\x7b\x7d]\x7d".toList ∧ a = b := by
  let literal : Expr := .mapping [("a\x01", .list [.literal (.number "-15"),
    .literal (.string "\x7d,"), .mapping []])]
  have reads {text : List Char} (value : (readMapping text).toOption = some literal) :
      readMapping text = .ok literal := by
    cases read : readMapping text <;> rw [read] at value <;> cases value
    rfl
  have loose : readMapping loosely = .ok literal := reads (by decide +kernel)
  have tight : readMapping tightly = .ok literal := reads (by decide +kernel)
  refine ⟨literal, literal, loose, tight, rfl, by decide, ?_⟩
  exact text_unambiguous.1 literal literal (text_unambiguous.2 loosely literal loose)
    (text_unambiguous.2 tightly literal tight) rfl

/-! ## One line -/

private theorem upperHexDigit_ne_newline : ∀ n < 16, upperHexDigit n ≠ '\n' := by
  decide

theorem newline_notMem_escaped (c : Char) : '\n' ∉ escaped c := by
  unfold escaped
  split_ifs with quote slash line carriage tab control
  iterate 5 decide
  · have small := lt_of_isControl control
    have high := upperHexDigit_ne_newline (c.toNat / 16) (by omega)
    have low := upperHexDigit_ne_newline (c.toNat % 16) (by omega)
    simp [high.symm, low.symm]
  · simpa using Ne.symm line

theorem newline_notMem_quoted (s : String) : '\n' ∉ quoted s := by
  intro member
  simp only [quoted, List.cons_append, List.mem_cons, List.mem_append, List.mem_flatMap] at member
  rcases member with quote | ⟨c, -, inside⟩ | quote
  · cases quote
  · exact newline_notMem_escaped c inside
  · simp at quote

private theorem newline_notMem_brackets {first close : Char} (left : first ≠ '\n')
    (right : close ≠ '\n') {pieces : List (List Char)} (each : ∀ piece ∈ pieces, '\n' ∉ piece) :
    '\n' ∉ first :: join [','] pieces ++ [close] := by
  intro member
  simp only [List.cons_append, List.mem_cons, List.mem_append, List.not_mem_nil, or_false] at member
  rcases member with start | inside | last
  · exact left start.symm
  · rcases Text.exists_mem_of_mem_join inside with comma | ⟨piece, found, newline⟩
    · simp at comma
    · exact each piece found newline
  · exact right last.symm

theorem IsDatum.newline_notMem_text {e : Expr} (datum : IsDatum e) : '\n' ∉ e.text := by
  induction datum with
  | null => decide
  | boolean b => cases b <;> decide
  | number numeral =>
      intro member
      exact ne_of_isNumeric (isNumeric_of_isNumeral numeral _ member) rfl rfl
  | string s => exact newline_notMem_quoted s
  | @list items each ih =>
      rw [Expr.text_list, Expr.itemTexts_eq]
      apply newline_notMem_brackets (by decide) (by decide)
      intro piece member
      obtain ⟨e, inside, rfl⟩ := List.mem_map.mp member
      exact ih e inside
  | @mapping fields each ih =>
      rw [Expr.text_mapping, Expr.fieldTexts_eq]
      apply newline_notMem_brackets (by decide) (by decide)
      intro piece member
      obtain ⟨field, inside, rfl⟩ := List.mem_map.mp member
      rw [fieldText, List.mem_append, List.mem_cons, not_or, not_or]
      exact ⟨newline_notMem_quoted field.1, by decide, ih field inside⟩

end SchemaWeaver.Source
