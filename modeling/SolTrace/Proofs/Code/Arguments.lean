import SolTrace.Proofs.Code.Deployments
/-!
Linked code with digits behind it, as the input that creates a contract has the arguments of the
constructor behind the code. The normal form of the whole is that of the code, if the code has
metadata. Otherwise it goes on behind the code, unless a marker starts in the one and ends in the
other.
-/
set_option autoImplicit false

namespace SolTrace.Bytecode

/-! ### Linked code -/

/-- Whether no place of a text is open: behind its prefix it is digits alone. -/
def Complete (text : List UInt8) : Prop :=
  ∀ byte ∈ Hex.stripPrefix text, isDigit byte = true

instance (text : List UInt8) : Decidable (Complete text) :=
  List.decidableBAll _ _

/-- Code with its metadata: digits in lower case, with zeros for the address of a guard. -/
def uncut (text : List UInt8) : List UInt8 :=
  zeroGuard ((Hex.stripPrefix text).map lowerByte)

theorem plain_digits {digits : List UInt8} (all : ∀ byte ∈ digits, isDigit byte = true) :
    Plain (digits.map lowerByte) := by
  intro byte within
  obtain ⟨digit, listed, rfl⟩ := List.mem_map.mp within
  exact plain_lowerByte (all digit listed)

theorem bare_digits {digits : List UInt8} (all : ∀ byte ∈ digits, isDigit byte = true) :
    Bare digits :=
  fun second found => (isDigit_lowerByte (all second (List.mem_of_getElem? found))).2.2

namespace Complete

variable {code text arguments : List UInt8}

theorem normalize (complete : Complete text) :
    Bytecode.normalize text = beforeMarker (uncut text) := by
  have plain := plain_digits complete
  rw [Bytecode.normalize, zeroPlaceholders_eq plain.bare, plain.masked, uncut]

/-- Without open places nothing is masked, and normal forms are compared. -/
theorem matchesUnlinked_iff (complete : Complete code) (complete' : Complete text) :
    matchesUnlinked code text = true ↔ Bytecode.normalize text = Bytecode.normalize code := by
  have none : placeholders code = [] :=
    placeholdersFrom_eq_nil (fun within => absurd (complete _ within) (by decide)) 0
  simp only [matchesUnlinked, none, List.filter_nil, List.foldl_nil, beq_iff_eq]
  rw [(plain_digits complete').normalize, complete'.normalize, uncut]

theorem stripPrefix_append (complete : Complete text)
    (digits : ∀ byte ∈ arguments, isDigit byte = true) :
    Hex.stripPrefix (text ++ arguments) = Hex.stripPrefix text ++ arguments := by
  unfold Complete at complete
  fun_cases Hex.stripPrefix text with
  | case1 rest => rfl
  | case2 rest => rfl
  | case3 text lower upper =>
      rw [Hex.stripPrefix] at complete
      · exact (bare_digits (List.forall_mem_append.mpr ⟨complete, digits⟩)).stripPrefix
      · exact lower
      · exact upper

theorem append (complete : Complete text) (digits : ∀ byte ∈ arguments, isDigit byte = true) :
    Complete (text ++ arguments) := by
  unfold Complete
  rw [complete.stripPrefix_append digits]
  exact List.forall_mem_append.mpr ⟨complete, digits⟩

end Complete

/-! ### The cut of a text that goes on -/

/-- Whether a text is cut. -/
def Marked (text : List UInt8) : Prop :=
  ∃ start, start % 2 = 0 ∧ startsWithMarker (text.drop start) = true

/-- Whether a marker starts in a text and ends in what is behind it. -/
def Straddled (text after : List UInt8) : Prop :=
  ∃ start marker, start % 2 = 0 ∧ marker ∈ markers ∧ marker <+: (text ++ after).drop start ∧
    start < text.length ∧ text.length < start + marker.length

theorem beforeMarker_of_unmarked {text : List UInt8} (unmarked : ¬ Marked text) :
    beforeMarker text = text := by
  rcases beforeMarker_cases text with ⟨start, even, starts, -, -⟩ | ⟨-, same⟩
  · exact absurd ⟨start, even, starts⟩ unmarked
  · exact same

theorem prefix_drop_of_fits {marker text after : List UInt8} {start : Nat}
    (occurs : marker <+: (text ++ after).drop start) (fits : start + marker.length ≤ text.length) :
    marker <+: text.drop start := by
  have front := (List.prefix_append text after).drop start
  exact List.prefix_of_prefix_length_le occurs front (by rw [List.length_drop]; omega)

/-- What is behind a text that is cut does not matter: a marker that starts before the cut and ends
behind the text would hold the one that the text is cut at. -/
theorem beforeMarker_append_marked {text : List UInt8} (marked : Marked text)
    (after : List UInt8) : beforeMarker (text ++ after) = beforeMarker text := by
  rcases beforeMarker_cases text with ⟨start, even, starts, first, cut⟩ | ⟨none, -⟩
  · obtain ⟨marker, known, occurs⟩ := startsWithMarker_iff.mp starts
    have fits : start + marker.length ≤ text.length := by
      have short := occurs.length_le
      have some := List.length_pos_iff.mpr (markers_ne_nil marker known)
      rw [List.length_drop] at short
      omega
    have whole : marker <+: (text ++ after).drop start :=
      occurs.trans ((List.prefix_append text after).drop start)
    rw [cut, beforeMarker_eq_take even (startsWithMarker_iff.mpr ⟨marker, known, whole⟩),
      List.take_append_of_le_length (by omega)]
    intro other before even'
    apply Bool.eq_false_iff.mpr
    intro starts'
    obtain ⟨marker', known', occurs'⟩ := startsWithMarker_iff.mp starts'
    have ends := ends_first known known' whole occurs' before
    have there := prefix_drop_of_fits occurs' (by omega)
    have none := first other before even'
    rw [startsWithMarker_iff.mpr ⟨marker', known', there⟩] at none
    cases none
  · obtain ⟨start, even, starts⟩ := marked
    rw [none start even] at starts
    cases starts

/-- A text that is not cut stays whole when it goes on, unless a marker straddles its end. -/
theorem prefix_beforeMarker_append {text : List UInt8} (unmarked : ¬ Marked text)
    (after : List UInt8) :
    text <+: beforeMarker (text ++ after) ↔ ¬ Straddled text after := by
  rcases beforeMarker_cases (text ++ after) with ⟨start, even, starts, first, cut⟩ | ⟨none, same⟩
  · rw [cut]
    constructor
    · rintro kept ⟨other, marker, even', known, occurs, inside, -⟩
      have long := kept.length_le
      rw [List.length_take] at long
      have none := first other (by omega) even'
      rw [startsWithMarker_iff.mpr ⟨marker, known, occurs⟩] at none
      cases none
    · intro clear
      have behind : text.length ≤ start := by
        by_contra inside
        obtain ⟨marker, known, occurs⟩ := startsWithMarker_iff.mp starts
        by_cases fits : start + marker.length ≤ text.length
        · exact unmarked ⟨start, even, startsWithMarker_iff.mpr
            ⟨marker, known, prefix_drop_of_fits occurs fits⟩⟩
        · exact clear ⟨start, marker, even, known, occurs, by omega, by omega⟩
      rw [List.take_append, List.take_of_length_le behind]
      exact List.prefix_append text _
  · rw [same]
    refine iff_of_true (List.prefix_append text after) ?_
    rintro ⟨start, marker, even, known, occurs, -, -⟩
    have missing := none start even
    rw [startsWithMarker_iff.mpr ⟨marker, known, occurs⟩] at missing
    cases missing

/-! ### Code and arguments -/

/-- Whether a guard at the start of code with arguments is one of the code itself, as it is if the
code has 23 bytes or more. -/
def GuardKept (code arguments : List UInt8) : Prop :=
  ∀ address rest, address.length = 40 →
    (Hex.stripPrefix code ++ arguments).map lowerByte = guarded address rest →
      46 ≤ (Hex.stripPrefix code).length

namespace Complete

variable {code arguments : List UInt8}

theorem uncut_append (complete : Complete code) (digits : ∀ byte ∈ arguments, isDigit byte = true)
    (guard : GuardKept code arguments) :
    uncut (code ++ arguments) = uncut code ++ arguments.map lowerByte := by
  have split : (Hex.stripPrefix (code ++ arguments)).map lowerByte =
      (Hex.stripPrefix code).map lowerByte ++ arguments.map lowerByte := by
    rw [complete.stripPrefix_append digits, List.map_append]
  unfold uncut
  rw [split]
  rcases zeroGuard_cases ((Hex.stripPrefix code).map lowerByte ++ arguments.map lowerByte) with
    ⟨address, rest, length, whole, -⟩ | ⟨free, same⟩
  · rw [zeroGuard_append]
    left
    rw [List.length_map]
    exact guard address rest length (by rw [List.map_append, whole])
  · rcases zeroGuard_cases ((Hex.stripPrefix code).map lowerByte) with
      ⟨address, rest, length, whole, -⟩ | ⟨-, same'⟩
    · rw [whole, guarded_append] at free
      exact absurd rfl (free address _ length)
    · rw [same, same']

/-- Arguments do not show in the normal form of code with metadata. In that of other code they stand
behind the code, unless a marker starts in the one and ends in the other. -/
theorem normalize_append (complete : Complete code)
    (digits : ∀ byte ∈ arguments, isDigit byte = true) (guard : GuardKept code arguments) :
    (Marked (uncut code) → Bytecode.normalize (code ++ arguments) = Bytecode.normalize code) ∧
      (¬ Marked (uncut code) →
        (Bytecode.normalize code <+: Bytecode.normalize (code ++ arguments) ↔
          ¬ Straddled (uncut code) (arguments.map lowerByte))) := by
  rw [(complete.append digits).normalize, complete.normalize, complete.uncut_append digits guard]
  constructor
  · intro marked
    exact beforeMarker_append_marked marked _
  · intro unmarked
    rw [beforeMarker_of_unmarked unmarked]
    exact prefix_beforeMarker_append unmarked _

end Complete

end SolTrace.Bytecode
