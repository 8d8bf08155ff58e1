import SolTrace.Json.Parser
import SolTrace.Proofs.Json.Tokens
/-!
JSON documents are read back from their text. A reader skips what its shape does not name and goes
so many levels deep, so that a document is read whole if all its members are named and no more
levels are in it.
-/
set_option autoImplicit false

namespace SolTrace.Json

/-- Whether a shape reads the whole of a document, with so many levels of arrays and objects. -/
inductive Readable : Nat → Shape → Json → Prop
  | null (levels : Nat) (shape : Shape) : Readable levels shape .null
  | bool (levels : Nat) (shape : Shape) (value : Bool) : Readable levels shape (.bool value)
  | number (levels : Nat) (shape : Shape) {text : String} (number : IsNumber text) :
      Readable levels shape (.number text)
  | string (levels : Nat) (shape : Shape) (text : String) : Readable levels shape (.string text)
  | array {levels : Nat} {shape : Shape} {items : List Json}
      (each : ∀ index (inside : index < items.length),
        Readable levels (shape.item index) items[index]) :
      Readable (levels + 1) shape (.array items)
  | object {levels : Nat} {shape : Shape} {members : List (String × Json)} (inner : String → Shape)
      (named : ∀ member ∈ members, shape.member? member.1 = some (inner member.1))
      (each : ∀ member ∈ members, Readable levels (inner member.1) member.2) :
      Readable (levels + 1) shape (.object members)

/-! ### Texts -/

theorem toList_print_array (items : List Json) :
    (print (.array items)).toList =
      '[' :: ([','].intercalate (items.map fun item => item.print.toList) ++ [']']) := by
  have texts : printItems items = items.map print := by
    induction items with
    | nil => rw [printItems, List.map_nil]
    | cons item items ih => rw [printItems, ih, List.map_cons]
  simp [print, texts, String.toList_intercalate, Function.comp_def]

/-- The text of a member. -/
def memberText (member : String × Json) : List Char :=
  (quote member.1).toList ++ ':' :: member.2.print.toList

theorem toList_print_object (members : List (String × Json)) :
    (print (.object members)).toList =
      '{' :: ([','].intercalate (members.map memberText) ++ ['}']) := by
  have texts : (printMembers members).map String.toList = members.map memberText := by
    induction members with
    | nil => rw [printMembers, List.map_nil, List.map_nil]
    | cons member members ih =>
        obtain ⟨key, value⟩ := member
        rw [printMembers, List.map_cons, List.map_cons, ih]
        simp [memberText]
  simp [print, texts, String.toList_intercalate]

theorem skipSpace_of_not {c : Char} (solid : isSpace c = false) (rest : List Char) :
    skipSpace (c :: rest) = c :: rest := by
  rw [skipSpace, List.dropWhile_cons, if_neg (by simp [solid])]

/-- The text of a document starts with a character of its own. -/
theorem Readable.head {levels : Nat} {shape : Shape} {json : Json}
    (readable : Readable levels shape json) :
    ∃ c rest, json.print.toList = c :: rest ∧ isSpace c = false ∧ c ≠ ']' := by
  cases readable with
  | null => exact ⟨'n', ['u', 'l', 'l'], by simp [print], by decide, by decide⟩
  | bool levels shape value =>
      cases value with
      | true => exact ⟨'t', ['r', 'u', 'e'], by simp [print], by decide, by decide⟩
      | false => exact ⟨'f', ['a', 'l', 's', 'e'], by simp [print], by decide, by decide⟩
  | string levels shape text =>
      rw [print, toList_quote]
      exact ⟨'"', _, rfl, by decide, by decide⟩
  | number levels shape number =>
      obtain ⟨c, rest, letters, first⟩ := number.head
      have solid : isSpace c = false := by
        rw [Bool.eq_false_iff]
        intro space
        simp only [isSpace, Bool.or_eq_true, beq_iff_eq] at space
        rcases space with ((rfl | rfl) | rfl) | rfl <;> exact absurd first (by decide)
      refine ⟨c, rest, by rw [print, letters], solid, ?_⟩
      rintro rfl
      exact absurd first (by decide)
  | array each =>
      rw [toList_print_array]
      exact ⟨'[', _, rfl, by decide, by decide⟩
  | object inner named each =>
      rw [toList_print_object]
      exact ⟨'{', _, rfl, by decide, by decide⟩

theorem Readable.skipSpace {levels : Nat} {shape : Shape} {json : Json}
    (readable : Readable levels shape json) (rest : List Char) :
    skipSpace (json.print.toList ++ rest) = json.print.toList ++ rest := by
  obtain ⟨c, tail, letters, solid, -⟩ := readable.head
  rw [letters, List.cons_append, skipSpace_of_not solid]

theorem length_le_intercalate {parts : List (List Char)} {part : List Char} (within : part ∈ parts)
    (separator : List Char) : part.length ≤ (separator.intercalate parts).length := by
  induction parts with
  | nil => exact absurd within List.not_mem_nil
  | cons first parts ih =>
      cases parts with
      | nil =>
          rw [List.mem_singleton.mp within]
          simp
      | cons next parts =>
          rw [List.intercalate_cons_cons, List.length_append, List.length_append]
          rcases List.mem_cons.mp within with rfl | within
          · omega
          · have later := ih within
            omega

theorem count_le_intercalate (parts : List (List Char)) (separator : Char) :
    parts.length ≤ ([separator].intercalate parts).length + 1 := by
  induction parts with
  | nil => exact Nat.zero_le _
  | cons first parts ih =>
      cases parts with
      | nil => simp
      | cons next parts =>
          rw [List.intercalate_cons_cons, List.length_append, List.length_append,
            List.length_singleton, List.length_cons]
          omega

theorem exists_intercalate_cons (separator part : List Char) (parts : List (List Char)) :
    ∃ more, separator.intercalate (part :: parts) = part ++ more := by
  cases parts with
  | nil => exact ⟨[], by rw [List.intercalate_singleton, List.append_nil]⟩
  | cons next parts =>
      exact ⟨_, by rw [List.intercalate_cons_cons, List.append_assoc]⟩

/-! ### Reading -/

/-- Items are read one after the other if each of them is read up to what may follow it. -/
theorem takeItems_intercalate (item : Nat → List Char → Option (Json × List Char))
    {items : List Json} (nonempty : items ≠ []) {fuel : Nat} (enough : items.length ≤ fuel)
    (start : Nat)
    (each : ∀ index (inside : index < items.length) (after : List Char), Ends after →
      item (start + index) (skipSpace (items[index].print.toList ++ after)) =
        some (items[index], after))
    (read : List Json) (rest : List Char) :
    takeItems item fuel start read
        ([','].intercalate (items.map fun item => item.print.toList) ++ ']' :: rest) =
      some (read.reverse ++ items, rest) := by
  induction items generalizing fuel start read with
  | nil => exact absurd rfl nonempty
  | cons first items ih =>
      obtain ⟨fuel, rfl⟩ := Nat.exists_eq_add_one.mpr (Nat.zero_lt_of_lt enough)
      have taken := each 0 (Nat.zero_lt_succ _)
      cases items with
      | nil =>
          have last := taken (']' :: rest) (.bracket rest)
          simp only [List.getElem_cons_zero, Nat.add_zero] at last
          simp only [List.map_cons, List.map_nil, List.intercalate_singleton, takeItems, last,
            skipSpace_of_not (show isSpace ']' = false by decide), List.reverse_cons]
      | cons second items =>
          have next := ih (List.cons_ne_nil _ _) (Nat.le_of_succ_le_succ enough) (start + 1)
            (fun index inside after ends => by
              have later := each (index + 1) (Nat.succ_lt_succ inside) after ends
              rwa [List.getElem_cons_succ, Nat.add_comm index 1, ← Nat.add_assoc] at later)
            (first :: read)
          rw [List.reverse_cons, List.append_assoc, List.singleton_append] at next
          have one := taken (',' :: ([','].intercalate
            ((second :: items).map fun item => item.print.toList) ++ ']' :: rest)) (.separator _)
          simp only [List.getElem_cons_zero, Nat.add_zero] at one
          rw [List.map_cons, List.map_cons, List.intercalate_cons_cons, List.append_assoc,
            List.append_assoc, List.singleton_append, takeItems]
          rw [List.map_cons] at one next
          simp only [one, skipSpace_of_not (show isSpace ',' = false by decide), next]

/-- Members are read one after the other if each of them is named and its value is read up to what
may follow it. -/
theorem takeMembers_intercalate {length : Nat}
    (member : String → Option (List Char → Option (Json × List Char)))
    {members : List (String × Json)} (nonempty : members ≠ []) {fuel : Nat}
    (enough : members.length ≤ fuel) (short : ∀ pair ∈ members, pair.1.toList.length < length)
    (each : ∀ pair ∈ members, ∃ value, member pair.1 = some value ∧ ∀ after, Ends after →
      value (skipSpace (pair.2.print.toList ++ after)) = some (pair.2, after))
    (read : List (String × Json)) (rest : List Char) :
    takeMembers length member fuel read
        ([','].intercalate (members.map memberText) ++ '}' :: rest) =
      some (read.reverse ++ members, rest) := by
  induction members generalizing fuel read with
  | nil => exact absurd rfl nonempty
  | cons first members ih =>
      obtain ⟨fuel, rfl⟩ := Nat.exists_eq_add_one.mpr (Nat.zero_lt_of_lt enough)
      obtain ⟨value, known, taken⟩ := each first List.mem_cons_self
      have key := takeQuoted_quote first.1 length (short first List.mem_cons_self)
      have mark (text : List Char) : skipSpace ((quote first.1).toList ++ text) =
          (quote first.1).toList ++ text := by
        rw [toList_quote]
        exact skipSpace_of_not (by decide) _
      cases members with
      | nil =>
          have last := taken ('}' :: rest) (.brace rest)
          simp only [List.map_cons, List.map_nil, List.intercalate_singleton, memberText,
            List.append_assoc, List.cons_append, takeMembers, mark, key,
            skipSpace_of_not (show isSpace ':' = false by decide), known, last, Option.map_some,
            skipSpace_of_not (show isSpace '}' = false by decide), List.reverse_cons]
      | cons second members =>
          have next := ih (List.cons_ne_nil _ _) (Nat.le_of_succ_le_succ enough)
            (fun pair within => short pair (List.mem_cons_of_mem _ within))
            (fun pair within => each pair (List.mem_cons_of_mem _ within)) (first :: read)
          rw [List.reverse_cons, List.append_assoc, List.singleton_append] at next
          have one := taken (',' :: ([','].intercalate ((second :: members).map memberText) ++
            '}' :: rest)) (.separator _)
          rw [List.map_cons, List.map_cons, List.intercalate_cons_cons, List.append_assoc,
            List.append_assoc, List.singleton_append, memberText, List.append_assoc,
            List.cons_append]
          rw [List.map_cons] at one next
          simp only [takeMembers, mark, key, skipSpace_of_not (show isSpace ':' = false by decide),
            known, one, Option.map_some, skipSpace_of_not (show isSpace ',' = false by decide),
            next]

theorem takeValue_string {length levels : Nat} {shape : Shape} {text : String}
    (short : text.toList.length < length) (rest : List Char) :
    takeValue length levels shape ((quote text).toList ++ rest) = some (.string text, rest) := by
  have read := takeQuoted_quote text length short rest
  rw [toList_quote, List.cons_append] at read ⊢
  rw [takeQuoted] at read
  rw [takeValue, read]
  rfl

theorem takeValue_number {length levels : Nat} {shape : Shape} {text : String}
    (number : IsNumber text) {rest : List Char} (ends : Ends rest) :
    takeValue length levels shape (text.toList ++ rest) = some (.number text, rest) := by
  have read := takeNumber_append ends number
  obtain ⟨c, tail, letters, first⟩ := number.head
  rw [letters, List.cons_append] at read ⊢
  have other (mark : Char) (notMinus : mark ≠ '-') (noDigit : mark.isDigit = false)
      (left right : List Char) : c :: left = mark :: right → False := by
    rintro ⟨⟩
    rcases first with minus | digit
    · exact notMinus minus
    · exact absurd digit (by simp [noDigit])
  rw [takeValue, read]
  · rfl
  · exact fun _ => other 'n' (by decide) (by decide) _ _
  · exact fun _ => other 't' (by decide) (by decide) _ _
  · exact fun _ => other 'f' (by decide) (by decide) _ _
  · exact fun _ => other '"' (by decide) (by decide) _ _
  · exact fun _ _ _ => other '[' (by decide) (by decide) _ _
  · exact fun _ _ _ => other '{' (by decide) (by decide) _ _

theorem takeValue_array {length levels : Nat} {shape : Shape} {items : List Json}
    (short : (print (.array items)).toList.length ≤ length)
    (heads : ∀ item ∈ items, ∃ c tail, item.print.toList = c :: tail ∧ isSpace c = false ∧ c ≠ ']')
    (each : ∀ index (inside : index < items.length) (after : List Char), Ends after →
      takeValue length (levels + 1) (shape.item index)
        (skipSpace (items[index].print.toList ++ after)) = some (items[index], after))
    (rest : List Char) :
    takeValue length (levels + 2) shape ((print (.array items)).toList ++ rest) =
      some (.array items, rest) := by
  rw [toList_print_array, List.cons_append, List.append_assoc, List.singleton_append]
  cases items with
  | nil =>
      rw [takeValue, List.map_nil, List.intercalate_nil, List.nil_append,
        skipSpace_of_not (by decide)]
      rfl
  | cons first items =>
      have enough : (first :: items).length ≤ length := by
        have count := count_le_intercalate ((first :: items).map fun item => item.print.toList) ','
        rw [toList_print_array, List.length_cons, List.length_append, List.length_singleton] at short
        rw [List.length_map] at count
        omega
      have read := takeItems_intercalate
        (fun index => takeValue length (levels + 1) (shape.item index))
        (List.cons_ne_nil first items) enough 0
        (fun index inside after ends => by
          have one := each index inside after ends
          simpa only [Nat.zero_add] using one) [] rest
      -- The text of the first item keeps the reader from taking the array for an empty one.
      obtain ⟨c, tail, letters, solid, notClosed⟩ := heads first List.mem_cons_self
      obtain ⟨more, text⟩ := exists_intercalate_cons [','] first.print.toList
        (items.map fun item => item.print.toList)
      rw [List.map_cons, text, letters, List.cons_append, List.cons_append] at read ⊢
      rw [takeValue, skipSpace_of_not solid]
      split
      · next same => exact absurd (List.cons.inj same).1 notClosed
      · simp only [read]
        rfl

theorem takeValue_object {length levels : Nat} {shape : Shape} {members : List (String × Json)}
    (short : (print (.object members)).toList.length ≤ length) (inner : String → Shape)
    (named : ∀ member ∈ members, shape.member? member.1 = some (inner member.1))
    (each : ∀ member ∈ members, ∀ after, Ends after →
      takeValue length (levels + 1) (inner member.1)
        (skipSpace (member.2.print.toList ++ after)) = some (member.2, after))
    (rest : List Char) :
    takeValue length (levels + 2) shape ((print (.object members)).toList ++ rest) =
      some (.object members, rest) := by
  rw [toList_print_object] at short ⊢
  rw [List.length_cons, List.length_append, List.length_singleton] at short
  rw [List.cons_append, List.append_assoc, List.singleton_append]
  cases members with
  | nil =>
      rw [takeValue, List.map_nil, List.intercalate_nil, List.nil_append,
        skipSpace_of_not (by decide)]
      rfl
  | cons first members =>
      have enough : (first :: members).length ≤ length := by
        have count := count_le_intercalate ((first :: members).map memberText) ','
        rw [List.length_map] at count
        omega
      have keys : ∀ member ∈ first :: members, member.1.toList.length < length := by
        intro member within
        have part := length_le_intercalate (List.mem_map_of_mem (f := memberText) within) [',']
        have key := length_lt_quote member.1
        rw [memberText, List.length_append] at part
        omega
      have read := takeMembers_intercalate
        (fun key => (shape.member? key).map (takeValue length (levels + 1)))
        (List.cons_ne_nil first members) enough keys
        (fun member within => ⟨takeValue length (levels + 1) (inner member.1),
          by rw [named member within, Option.map_some], each member within⟩) [] rest
      obtain ⟨more, text⟩ := exists_intercalate_cons [','] (memberText first)
        (members.map memberText)
      have opening : ∃ tail, memberText first = '"' :: tail :=
        ⟨_, by rw [memberText, toList_quote, List.cons_append]⟩
      obtain ⟨tail, letters⟩ := opening
      rw [List.map_cons, text, letters, List.cons_append, List.cons_append] at read ⊢
      rw [takeValue, skipSpace_of_not (by decide)]
      split
      · next same => exact absurd (List.cons.inj same).1 (by decide)
      · simp only [read]
        rfl

/-- A document is read up to what may follow it. -/
theorem Readable.takeValue {levels : Nat} {shape : Shape} {json : Json}
    (readable : Readable levels shape json) {length : Nat}
    (short : json.print.toList.length ≤ length) {rest : List Char} (ends : Ends rest) :
    takeValue length (levels + 1) shape (json.print.toList ++ rest) = some (json, rest) := by
  induction readable generalizing rest with
  | null => simp [print, Json.takeValue]
  | bool levels shape value => cases value <;> simp [print, Json.takeValue]
  | string levels shape text =>
      rw [print] at short ⊢
      exact takeValue_string (Nat.lt_of_lt_of_le (length_lt_quote text) short) rest
  | number levels shape number =>
      rw [print]
      exact takeValue_number number ends
  | @array levels shape items each ih =>
      refine takeValue_array short ?_ ?_ rest
      · intro item within
        obtain ⟨index, inside, rfl⟩ := List.getElem_of_mem within
        exact (each index inside).head
      · intro index inside after ends
        have part : items[index].print.toList.length ≤ (print (.array items)).toList.length := by
          have within := List.getElem_mem inside
          have part := length_le_intercalate
            (List.mem_map_of_mem (f := fun item : Json => item.print.toList) within) [',']
          rw [toList_print_array, List.length_cons, List.length_append]
          omega
        rw [(each index inside).skipSpace]
        exact ih index inside (Nat.le_trans part short) ends
  | @object levels shape members inner named each ih =>
      refine takeValue_object short inner named ?_ rest
      intro member within after ends
      have part : member.2.print.toList.length ≤ (print (.object members)).toList.length := by
        have part := length_le_intercalate (List.mem_map_of_mem (f := memberText) within) [',']
        rw [memberText, List.length_append, List.length_cons] at part
        rw [toList_print_object, List.length_cons, List.length_append]
        omega
      rw [(each member within).skipSpace]
      exact ih member within (Nat.le_trans part short) ends

/-- A document that nests less than 128 deep is read back from its text. -/
theorem Readable.parse?_print {shape : Shape} {json : Json} (readable : Readable 127 shape json) :
    parse? shape json.print = some json := by
  have read := readable.takeValue (Nat.le_refl _) Ends.nil
  have solid := readable.skipSpace []
  rw [List.append_nil] at read solid
  rw [parse?]
  simp only [solid, read]
  rfl

end SolTrace.Json
