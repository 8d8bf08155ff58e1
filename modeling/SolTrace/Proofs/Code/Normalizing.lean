import SolTrace.Proofs.Code.Markers
/-!
The passes that normalize code, each with what it does to a text that goes on: zeros over places and
zeros over the address of a library, which neither make nor hide a marker behind them.
-/
set_option autoImplicit false

namespace SolTrace.Bytecode

@[simp] theorem length_zeros (count : Nat) : (zeros count).length = count :=
  List.length_replicate

@[simp] theorem lowerByte_lowerByte (byte : UInt8) : lowerByte (lowerByte byte) = lowerByte byte := by
  unfold lowerByte
  grind

/-! ### Prefixes -/

/-- Whether no prefix is stripped from a text, in whatever case it is written. -/
def Bare (text : List UInt8) : Prop :=
  ∀ second, text[1]? = some second → lowerByte second ≠ 0x78

theorem Bare.stripPrefix {text : List UInt8} (bare : Bare text) : Hex.stripPrefix text = text := by
  fun_cases Hex.stripPrefix text with
  | case1 rest => exact absurd rfl (bare 0x78 rfl)
  | case2 rest => exact absurd rfl (bare 0x58 rfl)
  | case3 text => rfl

theorem Bare.stripPrefix_lead {lead text : List UInt8} (bare : Bare text)
    (known : lead ∈ [[], [0x30, 0x78], [0x30, 0x58]]) : Hex.stripPrefix (lead ++ text) = text := by
  simp only [List.mem_cons, List.not_mem_nil, or_false] at known
  rcases known with rfl | rfl | rfl
  · exact bare.stripPrefix
  · rfl
  · rfl

theorem Bare.map_lowerByte {text : List UInt8} (bare : Bare text) : Bare (text.map lowerByte) := by
  intro second found
  rw [List.getElem?_map, Option.map_eq_some_iff] at found
  obtain ⟨first, found, rfl⟩ := found
  rw [lowerByte_lowerByte]
  exact bare first found

/-! ### Places -/

/-- The text with zeros over its places, in one pass. -/
def masked : List UInt8 → List UInt8
  | 0x5F :: 0x5F :: text =>
      if placeholderLength - 2 ≤ text.length then
        zeros placeholderLength ++ masked (text.drop (placeholderLength - 2))
      else 0x5F :: 0x5F :: text
  | high :: low :: text => high :: low :: masked text
  | text => text
termination_by text => text.length
decreasing_by
  all_goals simp only [List.length_cons, List.length_drop]
  all_goals omega

theorem overwrite_append (front text : List UInt8) :
    overwrite (front ++ text) front.length =
      front ++ (zeros placeholderLength ++ text.drop placeholderLength) := by
  rw [overwrite, List.take_left, List.drop_append, List.drop_eq_nil_of_le (Nat.le_add_right _ _),
    Nat.add_sub_cancel_left, List.nil_append, List.append_assoc]

/-- Places that are overwritten one after the other leave alone what is before them. -/
theorem foldl_overwrite (front text : List UInt8) :
    (placeholdersFrom front.length text).foldl overwrite (front ++ text) = front ++ masked text := by
  induction text using masked.induct generalizing front with
  | case1 text fits ih =>
      have rest := ih (front ++ zeros placeholderLength)
      rw [List.length_append, length_zeros, List.append_assoc] at rest
      rw [placeholdersFrom, if_pos fits, masked, if_pos fits, List.foldl_cons, overwrite_append]
      exact rest.trans (List.append_assoc ..)
  | case2 text short =>
      rw [placeholdersFrom, if_neg short, masked, if_neg short, List.foldl_nil]
  | case3 high low text digits ih =>
      have rest := ih (front ++ [high, low])
      rw [List.length_append, List.append_assoc, List.append_assoc] at rest
      rw [placeholdersFrom, masked]
      · exact rest
      · exact digits
      · exact digits
  | case4 text short both =>
      rw [placeholdersFrom, masked, List.foldl_nil]
      all_goals assumption

theorem zeroPlaceholders_eq {text : List UInt8} (bare : Bare text) :
    zeroPlaceholders text = masked text := by
  simp only [zeroPlaceholders, placeholders, bare.stripPrefix]
  exact foldl_overwrite [] text

/-- A byte that is written without underscores is left alone. -/
theorem masked_byte {high : UInt8} (digit : high ≠ 0x5F) (low : UInt8) (text : List UInt8) :
    masked (high :: low :: text) = high :: low :: masked text := by
  rw [masked]
  intro first
  exact absurd first digit

theorem masked_place {name : List UInt8} (length : name.length = placeholderLength - 2)
    (text : List UInt8) :
    masked (0x5F :: 0x5F :: (name ++ text)) = zeros placeholderLength ++ masked text := by
  rw [masked, if_pos (by rw [List.length_append]; omega), List.drop_left' length]

theorem masked_short {text : List UInt8} (short : text.length ≤ 1) : masked text = text := by
  match text, short with
  | [], _ => simp [masked]
  | [only], _ => simp [masked]

theorem placeholdersFrom_eq_nil {text : List UInt8} (digits : 0x5F ∉ text) (position : Nat) :
    placeholdersFrom position text = [] := by
  fun_induction placeholdersFrom position text with
  | case1 position rest fits ih => exact absurd List.mem_cons_self digits
  | case2 position rest short => rfl
  | case3 position high low rest apart ih => exact ih fun within => digits (by simp [within])
  | case4 => rfl

theorem masked_eq_self {text : List UInt8} (digits : 0x5F ∉ text) : masked text = text := by
  induction text using masked.induct with
  | case1 text fits ih => exact absurd List.mem_cons_self digits
  | case2 text short => exact absurd List.mem_cons_self digits
  | case3 high low text apart ih =>
      rw [masked, ih fun within => digits (by simp [within])]
      exact apart
  | case4 text short both =>
      rw [masked]
      all_goals assumption

/-! ### The address of a library -/

/-- Code that starts with the guard of a library. -/
def guarded (address rest : List UInt8) : List UInt8 :=
  [0x37, 0x33] ++ (address ++ ([0x33, 0x30, 0x31, 0x34] ++ rest))

theorem guarded_append (address rest text : List UInt8) :
    guarded address rest ++ text = guarded address (rest ++ text) := by
  simp only [guarded, List.append_assoc]

theorem drop_guarded {address : List UInt8} (length : address.length = 40) (rest : List UInt8) :
    (guarded address rest).drop 42 = [0x33, 0x30, 0x31, 0x34] ++ rest := by
  rw [guarded, ← List.append_assoc]
  exact List.drop_left' (by simp [length])

/-- What is written over: the address of a leading guard, and nothing else. -/
theorem zeroGuard_cases (text : List UInt8) :
    (∃ address rest, address.length = 40 ∧ text = guarded address rest ∧
      zeroGuard text = guarded (zeros 40) rest) ∨
    ((∀ address rest, address.length = 40 → text ≠ guarded address rest) ∧
      zeroGuard text = text) := by
  by_cases guard : [0x37, 0x33].isPrefixOf text ∧
      [0x33, 0x30, 0x31, 0x34].isPrefixOf (text.drop 42)
  · left
    obtain ⟨after, start⟩ := List.isPrefixOf_iff_prefix.mp guard.1
    obtain ⟨rest, stop⟩ := List.isPrefixOf_iff_prefix.mp guard.2
    have whole : text = guarded (after.take 40) rest := by
      rw [guarded, stop, ← start]
      simp
    have length : (after.take 40).length = 40 := by
      have long := congrArg List.length stop
      rw [← start] at long
      simp at long ⊢
      omega
    refine ⟨after.take 40, rest, length, whole, ?_⟩
    rw [zeroGuard, if_pos guard, ← stop, ← start]
    rfl
  · right
    refine ⟨?_, by rw [zeroGuard, if_neg guard]⟩
    rintro address rest length rfl
    apply guard
    rw [drop_guarded length]
    exact ⟨by simp [guarded], by simp⟩

@[simp] theorem zeroGuard_guarded {address : List UInt8} (length : address.length = 40)
    (rest : List UInt8) : zeroGuard (guarded address rest) = guarded (zeros 40) rest := by
  rw [zeroGuard, drop_guarded length, if_pos]
  · simp [guarded]
  · simp [guarded]

@[simp] theorem zeroGuard_zeroGuard (text : List UInt8) :
    zeroGuard (zeroGuard text) = zeroGuard text := by
  rcases zeroGuard_cases text with ⟨address, rest, length, rfl, zeroed⟩ | ⟨-, same⟩
  · rw [zeroed, zeroGuard_guarded (length_zeros 40)]
  · rw [same, same]

@[simp] theorem length_zeroGuard (text : List UInt8) : (zeroGuard text).length = text.length := by
  rcases zeroGuard_cases text with ⟨address, rest, length, rfl, zeroed⟩ | ⟨-, same⟩
  · rw [zeroed]
    simp [guarded, length]
  · rw [same]

/-- What follows does not decide whether there is a guard, unless the text is shorter than one. -/
theorem zeroGuard_append {text rest : List UInt8}
    (long : 46 ≤ text.length ∨ (text ++ rest).length < 46) :
    zeroGuard (text ++ rest) = zeroGuard text ++ rest := by
  rcases zeroGuard_cases text with ⟨address, after, length, rfl, zeroed⟩ | ⟨free, same⟩
  · rw [zeroed, guarded_append, zeroGuard_guarded length, guarded_append]
  · rcases zeroGuard_cases (text ++ rest) with ⟨address, after, length, whole, -⟩ | ⟨-, same'⟩
    · have ends : guarded address after = guarded address [] ++ after := by
        rw [guarded_append, List.nil_append]
      have size : (guarded address []).length = 46 := by
        simp [guarded, length]
      have fits : 46 ≤ text.length := by
        have total := congrArg List.length whole
        have behind : (guarded address after).length = 46 + after.length := by
          rw [ends, List.length_append, size]
        omega
      have shared : guarded address [] <+: text ++ rest := by
        rw [whole, ends]
        exact List.prefix_append _ _
      obtain ⟨behind, same⟩ := List.prefix_of_prefix_length_le shared
        (List.prefix_append text rest) (by omega)
      exact absurd (same.symm.trans (guarded_append address [] behind)) (free _ _ length)
    · rw [same', same]

/-! ### Passes and markers -/

theorem masked_inner {text : List UInt8} (within : inner text = true) (rest : List UInt8) :
    masked (text ++ rest) = text ++ masked rest := by
  fun_induction inner text with
  | case1 high low text ih =>
      simp only [Bool.and_eq_true, bne_iff_ne] at within
      rw [List.cons_append, List.cons_append, masked_byte within.1.2, ih within.2]
      rfl
  | case2 => cases within
  | case3 => rfl

/-- A marker has no place in it. -/
theorem masked_marker {marker : List UInt8} (known : marker ∈ markers) (rest : List UInt8) :
    masked (marker ++ rest) = marker ++ masked rest := by
  obtain ⟨second, behind, rfl, within⟩ := markers_inner known
  rw [List.cons_append, List.cons_append, masked_byte (by decide), masked_inner within]
  rfl

theorem Clear.zeros {after text : List UInt8} (clear : Clear after text) (count : Nat) :
    Clear after (zeros (2 * count) ++ text) := by
  induction count with
  | zero => exact clear
  | succ count ih => exact ih.cons (by decide) 0x30

theorem Clear.guarded {after rest : List UInt8} (clear : Clear after rest) :
    Clear after (guarded (Bytecode.zeros 40) rest) :=
  (((clear.cons (by decide) 0x34).cons (by decide) 0x30).zeros 20).cons (by decide) 0x33

/-- Zeros over an address make no marker. -/
theorem Clear.zeroGuard {after text : List UInt8} (clear : Clear after text) :
    Clear after (zeroGuard text) := by
  rcases zeroGuard_cases text with ⟨address, rest, length, rfl, zeroed⟩ | ⟨-, same⟩
  · have behind := clear.drop 21
    rw [drop_guarded length] at behind
    rw [zeroed]
    exact behind.2.2.guarded
  · rw [same]
    exact clear

end SolTrace.Bytecode
