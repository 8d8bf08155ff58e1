import SolTrace.Trace.Scopes
/-!
Bindings: what the operations on the bound variables do to a single scope, and which variables a
list of scopes shows.
-/
set_option autoImplicit false

namespace SolTrace.Scopes

/-- The binding of a variable in a scope. -/
def binding? (scopes : Scopes) (scope var : NodeId) : Option Assignment :=
  (scopes.bindings scope)[var]?

@[simp] theorem binding?_empty (scope var : NodeId) :
    binding? ∅ scope var = none := by
  simp [binding?, bindings]

theorem binding?_bind (scopes : Scopes) (scope other var : NodeId) (assignment : Assignment) :
    (scopes.bind other assignment).binding? scope var =
      if other = scope ∧ assignment.var.id = var then some assignment
      else scopes.binding? scope var := by
  unfold binding? bind bindings
  rw [Std.ExtTreeMap.getElem?_insert]
  by_cases same : other = scope
  · subst same
    simp only [Std.ReflCmp.compare_self, ↓reduceIte, Option.getD_some, true_and]
    rw [Std.ExtTreeMap.getElem?_insert]
    simp only [Std.LawfulEqCmp.compare_eq_iff_eq]
  · simp [same, Std.LawfulEqCmp.compare_eq_iff_eq]

theorem getElem?_clear (ids : List NodeId) :
    ∀ (scopes : Scopes) (scope : NodeId),
      (scopes.clear ids)[scope]? = if scope ∈ ids then none else scopes[scope]? := by
  induction ids with
  | nil => intro scopes scope; simp [clear]
  | cons id ids ih =>
      intro scopes scope
      have rest := ih (scopes.erase id) scope
      simp only [clear, List.foldl_cons] at rest ⊢
      rw [rest, Std.ExtTreeMap.getElem?_erase]
      by_cases same : id = scope
      · simp [same]
      · simp [same, Ne.symm same, Std.LawfulEqCmp.compare_eq_iff_eq]

theorem binding?_clear (scopes : Scopes) (ids : List NodeId) (scope var : NodeId) :
    (scopes.clear ids).binding? scope var =
      if scope ∈ ids then none else scopes.binding? scope var := by
  unfold binding? bindings
  rw [getElem?_clear]
  split <;> simp

/-- What is restored counts; other scopes are left alone. -/
theorem getElem?_restore (saved : List (NodeId × Bindings)) :
    ∀ (scopes : Scopes) (scope : NodeId),
      (∃ bindings, (scope, bindings) ∈ saved ∧ (scopes.restore saved)[scope]? = some bindings) ∨
        (∀ entry ∈ saved, entry.1 ≠ scope) ∧ (scopes.restore saved)[scope]? = scopes[scope]? := by
  induction saved with
  | nil => intro scopes scope; simp [restore]
  | cons entry saved ih =>
      intro scopes scope
      obtain ⟨id, kept⟩ := entry
      have rest := ih (scopes.insert id kept) scope
      simp only [restore, List.foldl_cons] at rest ⊢
      rcases rest with ⟨bindings, member, found⟩ | ⟨others, found⟩
      · exact Or.inl ⟨bindings, List.mem_cons_of_mem _ member, found⟩
      · rw [Std.ExtTreeMap.getElem?_insert] at found
        by_cases same : id = scope
        · subst same
          simp only [Std.ReflCmp.compare_self, ↓reduceIte] at found
          exact Or.inl ⟨kept, List.mem_cons_self, found⟩
        · simp only [Std.LawfulEqCmp.compare_eq_iff_eq, if_neg same] at found
          refine Or.inr ⟨?_, found⟩
          intro entry member
          rcases List.mem_cons.mp member with rfl | member
          · exact same
          · exact others entry member

theorem mem_pick {scopes : Scopes} {ids : List NodeId} {id : NodeId} {bindings : Bindings}
    (member : (id, bindings) ∈ scopes.pick ids) : id ∈ ids ∧ bindings = scopes.bindings id := by
  obtain ⟨other, inside, found⟩ := List.mem_filterMap.mp member
  obtain ⟨kept, lookup, same⟩ := Option.map_eq_some_iff.mp found
  cases same
  exact ⟨inside, by simp [Scopes.bindings, lookup]⟩

/-! ### Shown variables -/

/-- The first binding of a variable in a list of scopes. -/
def first? (scopes : Scopes) (var : NodeId) (ids : List NodeId) : Option Assignment :=
  ids.findSome? fun id => scopes.binding? id var

theorem getElem?_foldl_insertIfNew (entries : List (NodeId × Assignment)) :
    ∀ (found : Bindings) (var : NodeId),
      (entries.foldl (fun found entry => found.insertIfNew entry.1 entry.2) found)[var]? =
        (found[var]?).or ((entries.find? (compare ·.1 var == .eq)).map Prod.snd) := by
  induction entries with
  | nil => intro found var; simp
  | cons entry entries ih =>
      intro found var
      rw [List.foldl_cons, ih, Std.ExtTreeMap.getElem?_insertIfNew]
      by_cases same : compare entry.1 var = .eq
      · have key : entry.1 = var := Std.LawfulEqCmp.eq_of_compare same
        subst key
        by_cases known : entry.1 ∈ found <;> simp [known]
      · simp [same]

theorem find?_toList (bindings : Bindings) (var : NodeId) :
    (bindings.toList.find? (compare ·.1 var == .eq)).map Prod.snd = bindings[var]? := by
  by_cases known : var ∈ bindings
  · obtain ⟨kept, lookup⟩ := Option.isSome_iff_exists.mp
      (Std.ExtTreeMap.mem_iff_isSome_getElem?.mp known)
    obtain ⟨key, stored⟩ := Option.isSome_iff_exists.mp
      (Std.ExtTreeMap.mem_iff_isSome_getKey?.mp known)
    rw [Std.ExtTreeMap.find?_toList_eq_some_iff_getKey?_eq_some_and_getElem?_eq_some.mpr
      ⟨stored, lookup⟩, lookup]
    rfl
  · rw [Std.ExtTreeMap.find?_toList_eq_none_iff_not_mem.mpr known,
      Std.ExtTreeMap.getElem?_eq_none known]
    rfl

theorem getElem?_collected (scopes : Scopes) (ids : List NodeId) :
    ∀ (found : Bindings) (var : NodeId),
      (ids.foldl (fun found id =>
        (scopes.bindings id).foldl (fun found var assignment => found.insertIfNew var assignment)
          found) found)[var]? = (found[var]?).or (scopes.first? var ids) := by
  induction ids with
  | nil => intro found var; simp [first?]
  | cons id ids ih =>
      intro found var
      rw [List.foldl_cons, ih, Std.ExtTreeMap.foldl_eq_foldl_toList, getElem?_foldl_insertIfNew,
        find?_toList, Option.or_assoc]
      have here : (scopes.bindings id)[var]? = scopes.binding? id var := rfl
      rw [here]
      cases known : scopes.binding? id var <;> simp [first?, known]

theorem mem_collect {scopes : Scopes} {ids : List NodeId} {assignment : Assignment} :
    assignment ∈ scopes.collect ids ↔ ∃ var, scopes.first? var ids = some assignment := by
  simp only [collect, List.mem_map, Prod.exists, Std.ExtTreeMap.mem_toList_iff_getElem?_eq_some,
    exists_eq_right, getElem?_collected]
  simp

end SolTrace.Scopes
