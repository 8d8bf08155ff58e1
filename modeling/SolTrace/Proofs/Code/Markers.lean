import SolTrace.Bytecode
import Mathlib.Data.List.Infix
/-!
The markers of metadata. Each is looked for on its own, and its occurrences are taken from the left
without overlaps. As no marker overlaps itself, none of its occurrences is missed, and code is cut
at the first byte at which any of them starts.
-/
set_option autoImplicit false

namespace SolTrace.Bytecode

/-! ### Occurrences -/

/-- Whether two occurrences of a marker never overlap. -/
def Alone (marker : List UInt8) : Prop :=
  ∀ shift < marker.length, 0 < shift → ¬ marker.drop shift <+: marker

instance (marker : List UInt8) : Decidable (Alone marker) :=
  inferInstanceAs (Decidable (∀ shift < marker.length, 0 < shift → _))

theorem markers_alone : ∀ marker ∈ markers, Alone marker := by
  decide

theorem Alone.apart {marker text : List UInt8} (alone : Alone marker) (here : marker <+: text)
    {shift : Nat} (above : 0 < shift) (below : shift < marker.length) :
    ¬ marker <+: text.drop shift := by
  intro there
  obtain ⟨rest, rfl⟩ := here
  rw [List.drop_append_of_le_length (Nat.le_of_lt below)] at there
  apply alone shift below above
  exact List.prefix_of_prefix_length_le (List.prefix_append _ rest) there
    (by rw [List.length_drop]; omega)

theorem markers_ne_nil : ∀ marker ∈ markers, marker ≠ [] := by
  decide

/-- No marker occurs within another one. -/
theorem not_prefix_drop_marker : ∀ marker ∈ markers, ∀ other ∈ markers,
    ∀ shift < other.length, 0 < shift → ¬ marker <+: other.drop shift := by
  decide

/-- Of two markers in a text the one that starts first ends first. -/
theorem ends_first {text marker other : List UInt8} (known : marker ∈ markers)
    (known' : other ∈ markers) {start before : Nat} (occurs : marker <+: text.drop start)
    (occurs' : other <+: text.drop before) (first : before < start) :
    before + other.length < start + marker.length := by
  by_contra late
  have some := List.length_pos_iff.mpr (markers_ne_nil marker known)
  have behind : other.drop (start - before) <+: text.drop start := by
    have both := occurs'.drop (start - before)
    rwa [List.drop_drop, Nat.add_sub_cancel' (Nat.le_of_lt first)] at both
  apply not_prefix_drop_marker marker known other known' (start - before) (by omega) (by omega)
  exact List.prefix_of_prefix_length_le occurs behind (by rw [List.length_drop]; omega)

/-- Whether a marker occurs in a text at an index, if the text itself starts at `position`. -/
def OccursAt (marker : List UInt8) (position : Nat) (text : List UInt8) (index : Nat) : Prop :=
  ∃ shift, index = position + shift ∧ marker <+: text.drop shift

theorem occursAt_cons {marker : List UInt8} {position : Nat} {byte : UInt8} {text : List UInt8}
    {index : Nat} : OccursAt marker position (byte :: text) index ↔
      (index = position ∧ marker <+: byte :: text) ∨ OccursAt marker (position + 1) text index := by
  constructor
  · rintro ⟨shift, rfl, occurs⟩
    cases shift with
    | zero => exact .inl ⟨rfl, occurs⟩
    | succ shift => exact .inr ⟨shift, by omega, occurs⟩
  · rintro (⟨rfl, occurs⟩ | ⟨shift, rfl, occurs⟩)
    · exact ⟨0, rfl, occurs⟩
    · exact ⟨shift + 1, by omega, occurs⟩

/-- All occurrences of a marker are listed, if none starts in the part that is skipped. -/
theorem mem_occurrencesFrom {marker : List UInt8} (alone : Alone marker) (some : marker ≠ [])
    {text : List UInt8} {position skip index : Nat}
    (skipped : ∀ shift < skip, ¬ marker <+: text.drop shift) :
    index ∈ occurrencesFrom marker position skip text ↔ OccursAt marker position text index := by
  fun_induction occurrencesFrom marker position skip text with
  | case1 position skip => simp [OccursAt, some]
  | case2 position skip byte text ih =>
      have first : ¬ marker <+: byte :: text := skipped 0 (Nat.succ_pos skip)
      rw [ih fun shift below => skipped (shift + 1) (Nat.succ_lt_succ below), occursAt_cons]
      exact (or_iff_right fun here => first here.2).symm
  | case3 position byte text starts ih =>
      have here := List.isPrefixOf_iff_prefix.mp starts
      have none : ∀ shift < marker.length - 1, ¬ marker <+: text.drop shift := fun shift below =>
        alone.apart here (Nat.succ_pos shift) (by omega)
      rw [List.mem_cons, ih none, occursAt_cons]
      exact or_congr_left (and_iff_left here).symm
  | case4 position byte text other ih =>
      rw [ih nofun, occursAt_cons]
      exact (or_iff_right fun here => other (List.isPrefixOf_iff_prefix.mpr here.2)).symm

/-- Occurrences are listed from the left. -/
theorem occurrencesFrom_sorted (marker : List UInt8) (position skip : Nat) (text : List UInt8) :
    (∀ index ∈ occurrencesFrom marker position skip text, position ≤ index) ∧
      (occurrencesFrom marker position skip text).Pairwise (· < ·) := by
  fun_induction occurrencesFrom marker position skip text with
  | case1 position skip => simp
  | case2 position skip byte text ih =>
      exact ⟨fun index within => Nat.le_of_succ_le (ih.1 index within), ih.2⟩
  | case3 position byte text starts ih =>
      exact ⟨List.forall_mem_cons.mpr ⟨Nat.le_refl _, fun index within =>
        Nat.le_of_succ_le (ih.1 index within)⟩, List.pairwise_cons.mpr ih⟩
  | case4 position byte text other ih =>
      exact ⟨fun index within => Nat.le_of_succ_le (ih.1 index within), ih.2⟩

/-! ### The first marker -/

def startsWithMarker (text : List UInt8) : Bool :=
  markers.any fun marker => marker.isPrefixOf text

theorem startsWithMarker_iff {text : List UInt8} :
    startsWithMarker text = true ↔ ∃ marker ∈ markers, marker <+: text := by
  simp only [startsWithMarker, List.any_eq_true, List.isPrefixOf_iff_prefix]

theorem mem_occurrences {text marker : List UInt8} (known : marker ∈ markers) {index : Nat} :
    index ∈ occurrencesFrom marker 0 0 text ↔ marker <+: text.drop index := by
  rw [mem_occurrencesFrom (markers_alone marker known) (markers_ne_nil marker known)
    fun _ below => absurd below (Nat.not_lt_zero _)]
  constructor
  · rintro ⟨shift, rfl, occurs⟩
    rwa [Nat.zero_add]
  · intro occurs
    exact ⟨index, (Nat.zero_add index).symm, occurs⟩

/-- What is found for a marker is its first occurrence on a byte boundary. -/
theorem findEven?_eq_some {text marker : List UInt8} (known : marker ∈ markers) {start : Nat}
    (found : findEven? text marker = some start) :
    start % 2 = 0 ∧ marker <+: text.drop start ∧
      ∀ other, other % 2 = 0 → marker <+: text.drop other → start ≤ other := by
  obtain ⟨even, earlier, later, whole, odd⟩ := List.find?_eq_some_iff_append.mp found
  have sorted := (occurrencesFrom_sorted marker 0 0 text).2
  have here : start ∈ occurrencesFrom marker 0 0 text := List.mem_of_find?_eq_some found
  refine ⟨by simpa using even, (mem_occurrences known).mp here, fun other even occurs => ?_⟩
  have there := (mem_occurrences known).mpr occurs
  rw [whole] at there sorted
  rcases List.mem_append.mp there with before | after
  · have missed := odd other before
    rw [even] at missed
    cases missed
  · rcases List.mem_cons.mp after with rfl | after
    · exact Nat.le_refl _
    · exact Nat.le_of_lt ((List.pairwise_cons.mp (List.pairwise_append.mp sorted).2.1).1 other after)

theorem findEven?_eq_none {text marker : List UInt8} (known : marker ∈ markers)
    (none : findEven? text marker = none) (other : Nat) (even : other % 2 = 0) :
    ¬ marker <+: text.drop other := by
  intro occurs
  have odd := List.find?_eq_none.mp none other ((mem_occurrences known).mpr occurs)
  rw [even] at odd
  exact odd rfl

/-- Code is cut at the first byte at which any of the markers starts. -/
theorem beforeMarker_cases (text : List UInt8) :
    (∃ start, start % 2 = 0 ∧ startsWithMarker (text.drop start) = true ∧
      (∀ other < start, other % 2 = 0 → startsWithMarker (text.drop other) = false) ∧
      beforeMarker text = text.take start) ∨
    ((∀ other, other % 2 = 0 → startsWithMarker (text.drop other) = false) ∧
      beforeMarker text = text) := by
  unfold beforeMarker
  cases first : (markers.filterMap (findEven? text)).min? with
  | none =>
      right
      refine ⟨fun other even => ?_, rfl⟩
      rw [Bool.eq_false_iff, Ne, startsWithMarker_iff]
      rintro ⟨marker, known, occurs⟩
      have missing := List.filterMap_eq_nil_iff.mp (List.min?_eq_none_iff.mp first) marker known
      exact findEven?_eq_none known missing other even occurs
  | some start =>
      left
      obtain ⟨listed, least⟩ := List.min?_eq_some_iff.mp first
      obtain ⟨marker, known, found⟩ := List.mem_filterMap.mp listed
      obtain ⟨even, occurs, -⟩ := findEven?_eq_some known found
      refine ⟨start, even, startsWithMarker_iff.mpr ⟨marker, known, occurs⟩, ?_, rfl⟩
      intro other before even
      rw [Bool.eq_false_iff, Ne, startsWithMarker_iff]
      rintro ⟨marker, known, occurs⟩
      cases search : findEven? text marker with
      | none => exact findEven?_eq_none known search other even occurs
      | some index =>
          have early := (findEven?_eq_some known search).2.2 other even occurs
          have late := least index (List.mem_filterMap.mpr ⟨marker, known, search⟩)
          omega

/-- The first start of a marker decides where code is cut. -/
theorem beforeMarker_eq_take {text : List UInt8} {start : Nat} (even : start % 2 = 0)
    (starts : startsWithMarker (text.drop start) = true)
    (first : ∀ other < start, other % 2 = 0 → startsWithMarker (text.drop other) = false) :
    beforeMarker text = text.take start := by
  rcases beforeMarker_cases text with ⟨start', even', starts', first', cut⟩ | ⟨none, -⟩
  · have least : ¬ start < start' := by
      intro before
      rw [first' start before even] at starts
      cases starts
    have most : ¬ start' < start := by
      intro before
      rw [first start' before even'] at starts'
      cases starts'
    rw [cut, show start' = start by omega]
  · rw [none start even] at starts
    cases starts

theorem beforeMarker_prefix (text : List UInt8) : beforeMarker text <+: text := by
  rcases beforeMarker_cases text with ⟨start, -, -, -, cut⟩ | ⟨-, same⟩
  · rw [cut]
    exact List.take_prefix start text
  · rw [same]

/-! ### The shape of markers -/

/-- Whether no pair of a text starts as a marker starts, or as zeros or the place of a library. -/
def inner : List UInt8 → Bool
  | high :: _ :: text => high != 0x61 && high != 0x30 && high != 0x5F && inner text
  | [_] => false
  | [] => true

/-- No two markers overlap on byte boundaries, and none reaches into zeros or a place. -/
theorem markers_inner {marker : List UInt8} (known : marker ∈ markers) :
    ∃ second rest, marker = 0x61 :: second :: rest ∧ inner rest = true := by
  have all : ∀ marker ∈ markers, marker.head? = some 0x61 ∧ 2 ≤ marker.length ∧
      inner (marker.drop 2) = true := by
    decide
  obtain ⟨first, long, within⟩ := all marker known
  cases marker with
  | nil => cases first
  | cons high rest =>
      cases rest with
      | nil => exact absurd long (by simp)
      | cons second rest =>
          cases first
          exact ⟨second, rest, rfl, within⟩

/-- A marker starts with its letter alone. -/
theorem startsWithMarker_cons {high : UInt8} (other : high ≠ 0x61) (text : List UInt8) :
    startsWithMarker (high :: text) = false := by
  rw [Bool.eq_false_iff, Ne, startsWithMarker_iff]
  rintro ⟨marker, known, start⟩
  obtain ⟨second, rest, rfl, -⟩ := markers_inner known
  exact other (List.cons_prefix_cons.mp start).1.symm

/-! ### Texts without a marker -/

/-- Whether no marker starts on a byte boundary of a text, if another text follows it. -/
def Clear (after : List UInt8) : List UInt8 → Prop
  | high :: low :: text =>
      startsWithMarker (high :: low :: (text ++ after)) = false ∧ Clear after text
  | [_] => False
  | [] => True

theorem Clear.drop {after text : List UInt8} (clear : Clear after text) (count : Nat) :
    Clear after (text.drop (2 * count)) := by
  induction count generalizing text with
  | zero => exact clear
  | succ count ih =>
      match text, clear with
      | [], _ => trivial
      | high :: low :: text, clear => exact ih clear.2

theorem Clear.cons {after text : List UInt8} (clear : Clear after text) {high : UInt8}
    (other : high ≠ 0x61) (low : UInt8) : Clear after (high :: low :: text) :=
  ⟨startsWithMarker_cons other _, clear⟩

theorem Clear.startsWithMarker {after text : List UInt8} (clear : Clear after text) {index : Nat}
    (even : index % 2 = 0) (below : index < text.length) :
    startsWithMarker ((text ++ after).drop index) = false := by
  fun_induction Clear after text generalizing index with
  | case1 high low text ih =>
      match index with
      | 0 => exact clear.1
      | 1 => cases even
      | index + 2 =>
          apply ih clear.2 (by omega)
          simp only [List.length_cons] at below
          omega
  | case2 => cases clear
  | case3 => cases below

theorem Clear.even {after text : List UInt8} (clear : Clear after text) : text.length % 2 = 0 := by
  fun_induction Clear after text with
  | case1 high low text ih =>
      have rest := ih clear.2
      rw [List.length_cons, List.length_cons]
      omega
  | case2 => cases clear
  | case3 => rfl

/-- Code is cut at a marker if none starts before it. -/
theorem beforeMarker_append_marker {text marker : List UInt8} (known : marker ∈ markers)
    (rest : List UInt8) (clear : Clear (marker ++ rest) text) :
    beforeMarker (text ++ (marker ++ rest)) = text := by
  have here : startsWithMarker ((text ++ (marker ++ rest)).drop text.length) = true := by
    rw [List.drop_left]
    exact startsWithMarker_iff.mpr ⟨marker, known, List.prefix_append marker rest⟩
  rw [beforeMarker_eq_take clear.even here fun other before even =>
    clear.startsWithMarker even before, List.take_left]

/-- Code is not cut if no marker starts in it. -/
theorem beforeMarker_append_short {text rest : List UInt8} (short : rest.length ≤ 1)
    (clear : Clear rest text) : beforeMarker (text ++ rest) = text ++ rest := by
  rcases beforeMarker_cases (text ++ rest) with ⟨start, even, starts, -, -⟩ | ⟨-, same⟩
  · have behind : ¬ start < text.length := by
      intro before
      rw [clear.startsWithMarker even before] at starts
      cases starts
    obtain ⟨marker, known, start⟩ := startsWithMarker_iff.mp starts
    obtain ⟨second, others, rfl, -⟩ := markers_inner known
    have fits := start.length_le
    simp only [List.length_cons, List.length_drop, List.length_append] at fits
    omega
  · exact same

end SolTrace.Bytecode
