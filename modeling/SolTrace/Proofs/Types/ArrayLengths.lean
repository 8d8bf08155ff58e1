import SolTrace.Proofs.Ast.Walks
import SolTrace.Proofs.Text.Numerals
import SolTrace.UserTypes
/-!
The lengths of arrays. The type of an array is its base type with a length, however deep type names
are nested. Where the length is no literal it is read from the text of the array type, up to the
first blank there: the text of a base type that has a blank in it hides the length behind it.
-/
set_option autoImplicit false

namespace SolTrace.Resolver

section

/-! ### Levels of type names -/

variable {resolver : Resolver}

/-- What resolves with some levels resolves with others, if that is so for the parts. -/
theorem resolveWithin_succ {depth other : Nat}
    (parts : ∀ id type, resolver.resolveWithin depth id = .ok type →
      resolver.resolveWithin other id = .ok type)
    {id : NodeId} {type : Ty} (resolved : resolver.resolveWithin (depth + 1) id = .ok type) :
    resolver.resolveWithin (other + 1) id = .ok type := by
  obtain ⟨node, stored, resolved⟩ := bind_eq_ok.mp resolved
  unfold resolveWithin
  rw [stored, ok_bind]
  split at resolved
  · exact resolved
  · -- an array
    split at resolved
    · cases resolved
    · obtain ⟨base, inner, made⟩ := bind_eq_ok.mp resolved
      rw [parts _ _ inner]
      exact made
  · -- a mapping
    split at resolved
    · obtain ⟨key, first, rest⟩ := bind_eq_ok.mp resolved
      obtain ⟨value, second, made⟩ := bind_eq_ok.mp rest
      rw [parts _ _ first, ok_bind, parts _ _ second]
      exact made
    · cases resolved
  · exact resolved
  · exact resolved
  · exact resolved

theorem resolveWithin_mono (depth : Nat) :
    ∀ {id : NodeId} {type : Ty}, resolver.resolveWithin depth id = .ok type →
      resolver.resolveWithin (depth + 1) id = .ok type := by
  induction depth with
  | zero =>
      intro id type resolved
      cases resolved
  | succ depth ih =>
      intro id type resolved
      exact resolveWithin_succ (fun _ _ => ih) resolved

theorem resolveWithin_le {depth deeper : Nat} (le : depth ≤ deeper) {id : NodeId} {type : Ty}
    (resolved : resolver.resolveWithin depth id = .ok type) :
    resolver.resolveWithin deeper id = .ok type := by
  induction deeper, le using Nat.le_induction with
  | base => exact resolved
  | succ deeper _ ih => exact resolveWithin_mono deeper ih

/-- Whether more levels resolve nothing more. -/
def Enough (resolver : Resolver) (depth : Nat) : Prop :=
  ∀ id type, resolver.resolveWithin (depth + 1) id = .ok type →
    resolver.resolveWithin depth id = .ok type

theorem Enough.succ {depth : Nat} (enough : Enough resolver depth) :
    Enough resolver (depth + 1) :=
  fun _ _ => resolveWithin_succ enough

theorem Enough.resolveWithin {depth : Nat} (enough : Enough resolver depth) (more : Nat)
    {id : NodeId} {type : Ty} (resolved : resolver.resolveWithin (depth + more) id = .ok type) :
    resolver.resolveWithin depth id = .ok type := by
  induction more generalizing depth with
  | zero => exact resolved
  | succ more ih =>
      apply enough
      apply ih enough.succ
      rwa [Nat.add_right_comm]

theorem exists_late {depth : Nat} (more : ¬ Enough resolver depth) :
    ∃ id, (∃ type, resolver.resolveWithin (depth + 1) id = .ok type) ∧
      ∀ type, resolver.resolveWithin depth id ≠ .ok type := by
  unfold Enough at more
  push Not at more
  obtain ⟨id, type, resolved, late⟩ := more
  refine ⟨id, ⟨type, resolved⟩, fun other early => ?_⟩
  have same := (resolveWithin_mono depth early).symm.trans resolved
  cases same
  exact late early

/-- As long as more levels resolve more, each level takes a node that no other takes. -/
theorem enough_or_distinct (depth : Nat) :
    Enough resolver depth ∨ ∃ ids : List NodeId, ids.Nodup ∧ ids.length = depth + 1 ∧
      ∀ id ∈ ids, ∃ type, resolver.resolveWithin (depth + 1) id = .ok type := by
  induction depth with
  | zero =>
      by_cases enough : Enough resolver 0
      · exact .inl enough
      · obtain ⟨id, resolved, -⟩ := exists_late enough
        exact .inr ⟨[id], List.nodup_singleton id, rfl, List.forall_mem_singleton.mpr resolved⟩
  | succ depth ih =>
      by_cases enough : Enough resolver (depth + 1)
      · exact .inl enough
      · obtain ⟨id, resolved, late⟩ := exists_late enough
        obtain ⟨ids, distinct, length, early⟩ := ih.resolve_left (mt Enough.succ enough)
        refine .inr ⟨id :: ids, List.nodup_cons.mpr ⟨fun within => ?_, distinct⟩, ?_,
          List.forall_mem_cons.mpr ⟨resolved, fun other within => ?_⟩⟩
        · obtain ⟨type, before⟩ := early id within
          exact late type before
        · rw [List.length_cons, length]
        · obtain ⟨type, before⟩ := early other within
          exact ⟨type, resolveWithin_mono _ before⟩

/-- As many levels as there are nodes are enough. -/
theorem enough_size (resolver : Resolver) : Enough resolver resolver.ast.nodes.size := by
  refine (enough_or_distinct _).resolve_right ?_
  rintro ⟨ids, distinct, length, resolved⟩
  have kept : ∀ id ∈ ids, (resolver.ast.get? id).isSome = true := by
    intro id within
    obtain ⟨type, resolved⟩ := resolved id within
    obtain ⟨node, stored, -⟩ := bind_eq_ok.mp resolved
    unfold Ast.node at stored
    split at stored
    · next found => rw [found]; rfl
    · cases stored
  have bound := Ast.length_le_size distinct kept
  omega

/-- A type name resolves if any number of levels is enough for it. -/
theorem resolve_eq_ok {id : NodeId} {type : Ty} :
    resolver.resolve id = .ok type ↔ ∃ depth, resolver.resolveWithin depth id = .ok type := by
  constructor
  · intro resolved
    exact ⟨_, resolved⟩
  · rintro ⟨depth, resolved⟩
    apply resolveWithin_mono
    apply (enough_size resolver).resolveWithin depth
    exact resolveWithin_le (Nat.le_add_left _ _) resolved

/-- An array resolves if its base type does. -/
theorem resolve_array {id base : NodeId} {node : Node} {type : Ty}
    (stored : resolver.ast.node id = .ok node) (kind : node.kind = .arrayTypeName)
    (child : node.child? "baseType" = some base) (resolved : resolver.resolve base = .ok type) :
    resolver.resolve id = .ok (.array type (resolver.arrayLength? node)) := by
  apply resolve_eq_ok.mpr
  refine ⟨resolver.ast.nodes.size + 2, ?_⟩
  unfold resolveWithin
  rw [stored, ok_bind]
  simp only [kind, child]
  rw [show resolver.resolveWithin (resolver.ast.nodes.size + 1) base = .ok type from resolved]
  rfl

/-! ### The text of an array type -/

/-- Whether a text ends with a number between brackets. -/
def Closes (word : List Char) (count : Nat) : Prop :=
  ∃ front digits, word = front ++ '[' :: (digits ++ [']']) ∧ '[' ∉ digits ∧
    Text.nat64? (String.ofList digits) = some count

theorem Closes.getLast? {word : List Char} {count : Nat} (closes : Closes word count) :
    word.getLast? = some ']' := by
  obtain ⟨front, digits, rfl, -, -⟩ := closes
  rw [← List.cons_append, ← List.append_assoc]
  exact List.getLast?_concat

/-- What follows the first blank of a text does not count. -/
theorem lengthOfText?_eq_some {word rest : List Char} (apart : ' ' ∉ word)
    (after : rest = [] ∨ rest.head? = some ' ') {count : Nat} :
    lengthOfText? (String.ofList (word ++ rest)) = some count ↔ Closes word count := by
  have first : (Text.splitFirst ' ' (word ++ rest)).1 = word := by
    match rest, after with
    | [], _ => rw [List.append_nil, Text.splitFirst_of_notMem apart]
    | c :: rest, after =>
        have blank : c = ' ' := by simpa using after
        rw [blank, Text.splitFirst_append apart]
  rw [lengthOfText?, String.toList_ofList, first]
  split
  · next inner reversed =>
      have word_eq : word = inner.reverse ++ [']'] := by
        rw [← List.reverse_cons, ← reversed, List.reverse_reverse]
      rw [Option.bind_eq_some_iff]
      constructor
      · rintro ⟨⟨front, digits⟩, parts, number⟩
        obtain ⟨whole, apart⟩ := Text.splitLast?_eq_some.mp parts
        exact ⟨front, digits, by rw [word_eq, whole]; simp, apart, number⟩
      · rintro ⟨front, digits, whole, apart, number⟩
        refine ⟨(front, digits), Text.splitLast?_eq_some.mpr ⟨?_, apart⟩, number⟩
        apply (List.append_left_inj [']']).mp
        rw [← word_eq, whole]
        simp
  · next other =>
      constructor
      · intro none
        cases none
      · rintro ⟨front, digits, rfl, -, -⟩
        exact absurd (by simp) (other (digits.reverse ++ '[' :: front.reverse))

/-- An array type whose length is no plain literal, and whose text says that it is `count`: the text
of the base type, the number between brackets, and then words for the data location or nothing. -/
structure Sized (resolver : Resolver) (node : Node) (type : Ty) (base : List Char) (count : Nat) :
    Prop where
  stored : resolver.ast.node node.id = .ok node
  kind : node.kind = .arrayTypeName
  length : ∃ length, (node.child? "length").bind resolver.ast.get? = some length ∧
    (length.text? "value").bind Text.nat64? = none
  resolved : ∃ id, node.child? "baseType" = some id ∧ resolver.resolve id = .ok type
  written : ∃ digits words, Text.Numeral digits count ∧ count ≤ Text.maxNat64 ∧
    (words = [] ∨ words.head? = some ' ') ∧
    node.typeText? = some (String.ofList (base ++ '[' :: (digits ++ ']' :: words)))

variable {node : Node} {type : Ty} {base : List Char} {count : Nat}

theorem Sized.arrayLength? (sized : Sized resolver node type base count) :
    resolver.arrayLength? node = node.typeText?.bind lengthOfText? := by
  obtain ⟨length, given, expression⟩ := sized.length
  rw [Resolver.arrayLength?, given]
  simp only [expression]

/-- No digit is a bracket or a blank. -/
theorem plain_of_numeral {digits : List Char} {count : Nat} (numeral : Text.Numeral digits count) :
    '[' ∉ digits ∧ ' ' ∉ digits := by
  constructor
  · intro within
    exact absurd (numeral.digits _ within) (by decide)
  · intro within
    exact absurd (numeral.digits _ within) (by decide)

/-- What the type of an array is when its text says that it has `count` elements. It has that many
just if its base type is written without a blank. Otherwise what counts is the first word of the
base type: the array has the length that this word ends with, and is dynamic if it ends with
none. -/
theorem resolve_sized (sized : Sized resolver node type base count) :
    ∃ length, resolver.resolve node.id = .ok (.array type length) ∧
      (' ' ∉ base → length = some count) ∧
      ∀ word rest, base = word ++ ' ' :: rest → ' ' ∉ word →
        ∀ other, length = some other ↔ Closes word other := by
  obtain ⟨id, child, resolved⟩ := sized.resolved
  obtain ⟨digits, words, numeral, small, after, written⟩ := sized.written
  refine ⟨resolver.arrayLength? node, resolve_array sized.stored sized.kind child resolved, ?_, ?_⟩
  · intro apart
    have plain := plain_of_numeral numeral
    have word : base ++ '[' :: (digits ++ ']' :: words) =
        (base ++ '[' :: (digits ++ [']'])) ++ words := by simp
    rw [sized.arrayLength?, written, Option.bind_some, word, lengthOfText?_eq_some _ after]
    · exact ⟨base, digits, rfl, plain.1, numeral.nat64? small⟩
    · simp [apart, plain.2]
  · rintro word rest rfl apart other
    rw [sized.arrayLength?, written, Option.bind_some, List.append_assoc,
      lengthOfText?_eq_some apart (.inr rfl)]

end

namespace Sample

/-! Two arrays of as many elements as a constant says: one of structs, and one of arrays. -/

def described (text : String) : String × Json :=
  ("typeDescriptions", .object [("typeString", .string text)])

def structs : Node where
  id := 1
  tag := "ArrayTypeName"
  src := ""
  attributes := [described "struct A.S storage ref[3] storage ref"]
  children := [("baseType", [3]), ("length", [2])]

def arrays : Node where
  id := 4
  tag := "ArrayTypeName"
  src := ""
  attributes := [described "uint256[5] storage ref[3] storage ref"]
  children := [("baseType", [5]), ("length", [2])]

def resolver : Resolver where
  ast := [structs, ⟨2, "Identifier", "", [("name", .string "COUNT")], []⟩,
    ⟨3, "UserDefinedTypeName", "", [described "struct A.S storage ref"], []⟩, arrays,
    ⟨5, "ArrayTypeName", "", [described "uint256[5] storage ref"],
      [("baseType", [6]), ("length", [7])]⟩,
    ⟨6, "ElementaryTypeName", "", [("name", .string "uint256")], []⟩,
    ⟨7, "Literal", "", [("value", .string "5")], []⟩].foldl Ast.put .empty
  types := ⟨Std.ExtTreeMap.empty.insert "A.S" [], ∅⟩
  placeholders := false

theorem structs_sized :
    Sized resolver structs (.struct "A.S" []) "struct A.S storage ref".toList 3 where
  stored := by rfl
  kind := by decide
  length := ⟨⟨2, "Identifier", "", [("name", .string "COUNT")], []⟩, by rfl, by decide⟩
  resolved := ⟨3, by rfl, by rfl⟩
  written := ⟨['3'], " storage ref".toList, .digit 3 (by decide), by decide, by decide, by rfl⟩

theorem arrays_sized :
    Sized resolver arrays (.array (.elementary "uint256") (some 5))
      "uint256[5] storage ref".toList 3 where
  stored := by rfl
  kind := by decide
  length := ⟨⟨2, "Identifier", "", [("name", .string "COUNT")], []⟩, by rfl, by decide⟩
  resolved := ⟨5, by rfl, by rfl⟩
  written := ⟨['3'], " storage ref".toList, .digit 3 (by decide), by decide, by decide, by rfl⟩

end Sample

/-- Both arrays have three elements by their texts. One is dynamic instead, and the other one gets
the length of its elements. -/
theorem resolve_sized_sample :
    Sample.resolver.resolve 1 = .ok (.array (.struct "A.S" []) none) ∧
    Sample.resolver.resolve 4 =
      .ok (.array (.array (.elementary "uint256") (some 5)) (some 5)) := by
  obtain ⟨length, found, -, read⟩ := resolve_sized Sample.structs_sized
  obtain ⟨length', found', -, read'⟩ := resolve_sized Sample.arrays_sized
  have first := read "struct".toList "A.S storage ref".toList rfl (by decide)
  have second := read' "uint256[5]".toList "storage ref".toList rfl (by decide)
  have dynamic : length = none := by
    apply Option.eq_none_iff_forall_ne_some.mpr
    intro other same
    exact absurd ((first other).mp same).getLast? (by decide)
  have inner : length' = some 5 := (second 5).mpr ⟨"uint256".toList, ['5'], rfl, by decide, rfl⟩
  rw [dynamic] at found
  rw [inner] at found'
  exact ⟨found, found'⟩

end SolTrace.Resolver
