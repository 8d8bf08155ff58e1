import SolTrace.FileTree
import SolTrace.Proofs.Text.Numerals
/-!
Files in trees. Paths lead where the directories let them, so that neither writing nor removing a
file changes where any path leads, and only the one file is touched.
-/
set_option autoImplicit false

namespace SolTrace

/-! ### Names -/

namespace FilePath

/-- Whether a name is one of a file or directory, and not of a way to it. -/
structure IsName (name : String) : Prop where
  apart : '/' ∉ name.toList
  notEmpty : name ≠ ""
  notHere : name ≠ "."
  notBack : name ≠ ".."

theorem IsName.isAbsolute {name : String} (isName : IsName name) : isAbsolute name = false := by
  rw [FilePath.isAbsolute, beq_eq_false_iff_ne]
  exact fun first => isName.apart (List.mem_of_mem_head? first)

theorem getLast?_join (directory : String) {name : String} (isName : IsName name) :
    (join directory name).toList.getLast? = name.toList.getLast? := by
  have letters : name.toList ≠ [] := by simpa using isName.notEmpty
  obtain ⟨front, last, text⟩ := List.eq_nil_or_concat name.toList |>.resolve_left letters
  rw [join, isName.isAbsolute, if_neg (by decide)]
  split <;> simp [text, List.getLast?_cons]

/-- A path with a name at its end can be joined with a name. -/
theorem join_solid (directory : String) {name : String} (isName : IsName name) :
    join directory name ≠ "" ∧ (join directory name).toList.getLast? ≠ some '/' := by
  have last := getLast?_join directory isName
  constructor
  · intro empty
    rw [empty] at last
    exact isName.notEmpty (by simpa using last.symm)
  · rw [last]
    exact fun same => isName.apart (List.mem_of_mem_getLast? same)

/-- The names of what stands in a directory. -/
theorem names_join {directory name : String}
    (solid : directory ≠ "" ∧ directory.toList.getLast? ≠ some '/') (isName : IsName name) :
    names (join directory name) = names directory ++ [name] := by
  have text : (join directory name).toList = directory.toList ++ '/' :: name.toList := by
    have between : (directory.isEmpty || directory.toList.getLast? == some '/') = false := by
      simp [solid]
    rw [join, isName.isAbsolute, if_neg (by decide), between, if_neg (by decide)]
    simp
  have last : name.toList.splitOn '/' = [name.toList] :=
    List.splitOn_eq_singleton isName.apart
  rw [names, names, text, Text.split_eq_splitOn, Text.split_eq_splitOn,
    List.splitOn_append_cons_self, last, List.map_append, List.map_singleton,
    String.ofList_toList]

end FilePath

namespace FileTree

/-! ### Directories -/

/-- Whether two trees have the same directories. -/
structure SameDirectories (left right : FileTree) : Prop where
  start : left.workingDirectory = right.workingDirectory
  directories : ∀ route, left.isDirectoryAt route = right.isDirectoryAt route

theorem SameDirectories.refl (tree : FileTree) : SameDirectories tree tree :=
  ⟨rfl, fun _ => rfl⟩

theorem SameDirectories.trans {first second third : FileTree}
    (left : SameDirectories first second) (right : SameDirectories second third) :
    SameDirectories first third where
  start := left.start.trans right.start
  directories route := (left.directories route).trans (right.directories route)

theorem isDirectoryAt_iff {tree : FileTree} {route : Route} :
    tree.isDirectoryAt route = true ↔ tree.entryAt? route = some .directory := by
  rw [isDirectoryAt, beq_iff_eq]

/-- Nothing is found in what is no directory. -/
theorem walk_stuck {tree : FileTree} {route : Route} (blocked : tree.isDirectoryAt route = false)
    (name : String) (names : List String) : (tree.walk route (name :: names)).toOption = none := by
  rw [walk]
  cases here : tree.entryAt? route with
  | none => rfl
  | some entry =>
      cases entry with
      | file text => rfl
      | directory =>
          rw [isDirectoryAt_iff.mpr here] at blocked
          cases blocked

theorem SameDirectories.walk {left right : FileTree} (same : SameDirectories left right)
    (route : Route) (names : List String) :
    (left.walk route names).toOption = (right.walk route names).toOption := by
  induction names generalizing route with
  | nil => rfl
  | cons name names ih =>
      cases here : left.isDirectoryAt route with
      | false => rw [walk_stuck here, walk_stuck ((same.directories route).symm.trans here)]
      | true =>
          have there := (same.directories route).symm.trans here
          rw [isDirectoryAt_iff] at here there
          rw [FileTree.walk, FileTree.walk, here, there]
          simp only
          split
          · exact ih route
          · split
            · exact ih route.dropLast
            · split
              · rfl
              · exact ih (route ++ [name])

/-- A path leads to one place in trees with the same directories. -/
theorem SameDirectories.route? {left right : FileTree} (same : SameDirectories left right)
    (path : String) : left.route? path = right.route? path := by
  have start : left.start path = right.start path := by
    rw [FileTree.start, FileTree.start, same.start]
  rw [FileTree.route?, FileTree.route?, locate, locate, start]
  split
  · rfl
  · split
    · rfl
    · split
      · rfl
      · exact same.walk _ _

/-- A name that can be followed leads to some place, and the name of a file or directory to that
place in the directory. -/
theorem walk_cons {tree : FileTree} {route found : Route} {name : String} {names : List String}
    (walked : tree.walk route (name :: names) = .ok found) :
    ∃ next, tree.walk next names = .ok found ∧
      (FilePath.IsName name → next = route ++ [name]) := by
  rw [walk] at walked
  split at walked
  · cases walked
  · cases walked
  · split at walked
    · next here => exact ⟨route, walked, fun isName =>
        (here.elim isName.notEmpty isName.notHere).elim⟩
    · split at walked
      · next back => exact ⟨route.dropLast, walked, fun isName => (isName.notBack back).elim⟩
      · split at walked
        · cases walked
        · exact ⟨route ++ [name], walked, fun _ => rfl⟩

/-- Names lead from a place to where they are put behind its own. -/
theorem walk_isName {tree : FileTree} {route found : Route} {names : List String}
    (named : ∀ name ∈ names, FilePath.IsName name) (walked : tree.walk route names = .ok found) :
    found = route ++ names := by
  induction names generalizing route with
  | nil =>
      cases walked
      exact (List.append_nil _).symm
  | cons name names ih =>
      obtain ⟨next, rest, put⟩ := walk_cons walked
      have later := ih (fun name within => named name (List.mem_cons_of_mem _ within)) rest
      rw [later, put (named name List.mem_cons_self), List.append_assoc, List.singleton_append]

/-- The last names of a path are the last ones of where it leads to. -/
theorem walk_names {tree : FileTree} {route found : Route} {front back : List String}
    (named : ∀ name ∈ back, FilePath.IsName name)
    (walked : tree.walk route (front ++ back) = .ok found) : ∃ around, found = around ++ back := by
  induction front generalizing route with
  | nil => exact ⟨route, walk_isName named walked⟩
  | cons name front ih =>
      obtain ⟨next, rest, -⟩ := walk_cons walked
      exact ih rest

theorem route?_names {tree : FileTree} {path : String} {route : Route} {front back : List String}
    (names : FilePath.names path = front ++ back) (named : ∀ name ∈ back, FilePath.IsName name)
    (leads : tree.route? path = some route) : ∃ around, route = around ++ back := by
  have located : tree.locate path = .ok route := by
    cases found : tree.locate path with
    | error fault => simp [route?, found, Except.toOption] at leads
    | ok other =>
        rw [route?, found] at leads
        cases leads
        rfl
  rw [locate, names] at located
  split at located
  · cases located
  · split at located
    · cases located
    · split at located
      · cases located
      · exact walk_names named located

/-- Whether there is room for a file at a path: a directory around it, and none in its place. -/
def HasRoom (tree : FileTree) (path : String) : Prop :=
  ∃ route, tree.route? path = some route ∧ tree.isDirectoryAt route = false

theorem HasRoom.of_same {left right : FileTree} {path : String} (room : left.HasRoom path)
    (same : SameDirectories left right) : right.HasRoom path := by
  obtain ⟨route, leads, free⟩ := room
  exact ⟨route, (same.route? path).symm.trans leads, (same.directories route).symm.trans free⟩

/-! ### One file -/

/-- Whether no other file than the one at a path is different in two trees. -/
structure Touches (before after : FileTree) (path : String) : Prop where
  same : SameDirectories before after
  others : ∀ other, before.route? other ≠ before.route? path →
    after.read? other = before.read? other

theorem Touches.refl (tree : FileTree) (path : String) : Touches tree tree path :=
  ⟨.refl tree, fun _ _ => rfl⟩

theorem Touches.trans {first second third : FileTree} {path : String}
    (left : Touches first second path) (right : Touches second third path) :
    Touches first third path := by
  refine ⟨left.same.trans right.same, fun other apart => ?_⟩
  rw [right.others other, left.others other apart]
  rwa [← left.same.route?, ← left.same.route?]

theorem read?_eq_some {tree : FileTree} {path text : String} {route : Route}
    (leads : tree.route? path = some route) (held : tree.entries[route]? = some (.file text)) :
    tree.read? path = some text := by
  rw [read?, find?, leads, Option.bind_some, held]

theorem read?_congr {before after : FileTree} {path : String}
    (leads : after.route? path = before.route? path)
    (held : ∀ route, before.route? path = some route →
      after.entries[route]? = before.entries[route]?) :
    after.read? path = before.read? path := by
  have found : after.find? path = before.find? path := by
    rw [find?, find?, leads]
    cases known : before.route? path with
    | none => rfl
    | some route => exact held route known
  rw [read?, read?, found]

/-- One entry that is no directory and does not become one touches only its file. -/
theorem touches_of_entries {before : FileTree} {path : String} {route : Route}
    (leads : before.route? path = some route) (free : before.isDirectoryAt route = false)
    (entries : Std.ExtTreeMap Route FileEntry)
    (unlike : entries[route]? ≠ some FileEntry.directory)
    (others : ∀ other ≠ route, entries[other]? = before.entries[other]?) :
    Touches before { before with entries } path := by
  have same : SameDirectories before { before with entries } := by
    refine ⟨rfl, fun other => ?_⟩
    by_cases here : other = route
    · rw [here, free, isDirectoryAt, entryAt?]
      have inside : route.isEmpty = false := by
        cases route with
        | nil => cases free
        | cons name names => rfl
      rw [inside, if_neg (by decide)]
      exact (beq_eq_false_iff_ne.mpr unlike).symm
    · rw [isDirectoryAt, isDirectoryAt, entryAt?, entryAt?]
      simp only [others other here]
  refine ⟨same, fun other apart => read?_congr (same.route? other).symm fun found known => ?_⟩
  refine others found fun here => apart ?_
  rw [known, leads, here]

/-- Writing succeeds where there is room. -/
theorem write?_isSome_iff {tree : FileTree} {path text : String} :
    (tree.write? path text).isSome = true ↔ tree.HasRoom path := by
  rw [write?, HasRoom]
  cases tree.route? path with
  | none => simp
  | some route => cases free : tree.isDirectoryAt route <;> simp [free]

/-- A file that is written is there, and all others are as they were. -/
theorem write?_spec {tree after : FileTree} {path text : String}
    (written : tree.write? path text = some after) :
    Touches tree after path ∧ after.read? path = some text := by
  obtain ⟨route, leads, free⟩ := write?_isSome_iff.mp (Option.isSome_of_eq_some written)
  rw [write?, leads] at written
  simp only [free, Bool.false_eq_true, if_false, Option.some.injEq] at written
  have held : (tree.entries.insert route (.file text))[route]? = some (.file text) :=
    Std.ExtTreeMap.getElem?_insert_self
  have touched : Touches tree after path := by
    rw [← written]
    refine touches_of_entries leads free _ (by simp) fun other apart => ?_
    rw [Std.ExtTreeMap.getElem?_insert, if_neg]
    exact fun same => apart (Std.LawfulEqOrd.eq_of_compare same).symm
  refine ⟨touched, read?_eq_some ((touched.same.route? path).symm.trans leads) ?_⟩
  rw [← written]
  exact held

/-- A file that is removed is not there, and all others are as they were. -/
theorem remove_spec {tree : FileTree} {path : String} (room : tree.HasRoom path) :
    Touches tree (tree.remove path) path ∧ (tree.remove path).read? path = none := by
  obtain ⟨route, leads, free⟩ := room
  have removed : tree.remove path = { tree with entries := tree.entries.erase route } := by
    rw [remove, leads]
    simp only [free, Bool.false_eq_true, if_false]
  have missing : (tree.entries.erase route)[route]? = none :=
    Std.ExtTreeMap.getElem?_erase_self
  have touched : Touches tree (tree.remove path) path := by
    rw [removed]
    refine touches_of_entries leads free _ (by simp) fun other apart => ?_
    rw [Std.ExtTreeMap.getElem?_erase, if_neg]
    exact fun same => apart (Std.LawfulEqOrd.eq_of_compare same).symm
  refine ⟨touched, ?_⟩
  rw [read?, find?, ← touched.same.route? path, leads, Option.bind_some, removed, missing]

/-- A change with two parts succeeds if both of them do. -/
theorem Change.bind_eq_ok {α β : Type} {first : Change α} {next : α → Change β} {result : β}
    {before after : FileTree} :
    (first >>= next).run.run before = (.ok result, after) ↔
      ∃ value between, first.run.run before = (.ok value, between) ∧
        (next value).run.run between = (.ok result, after) := by
  have parts : (first >>= next).run.run before =
      match first.run.run before with
      | (.ok value, between) => (next value).run.run between
      | (.error fault, between) => (.error fault, between) := by
    rw [ExceptT.run_bind, StateT.run_bind]
    cases first.run.run before with
    | mk made between => cases made <;> rfl
  rw [parts]
  cases first.run.run before with
  | mk made between =>
      cases made with
      | error fault =>
          constructor
          · intro same
            cases same
          · rintro ⟨value, between, same, -⟩
            cases same
      | ok value =>
          constructor
          · exact fun last => ⟨value, between, rfl, last⟩
          · rintro ⟨value, between, same, last⟩
            cases same
            exact last

end FileTree

end SolTrace
