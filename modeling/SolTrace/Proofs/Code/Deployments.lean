import SolTrace.Proofs.Code.Normalizing
import Mathlib.Data.List.Infix
/-!
What the deployments of one contract share. Code is a list of bytes and of places for libraries,
after the guard of a library or not, and ends with metadata or not. Another deployment may differ in
prefix and case, in the places, in the address of the guard and in all that follows the marker of
the metadata. Its identity is the same.
-/
set_option autoImplicit false

namespace SolTrace.Bytecode

/-! ### Code as text -/

/-- Whether a byte is the character of a digit, in either case. -/
def isDigit (byte : UInt8) : Bool :=
  (Hex.digit? byte).isSome

/-- A byte of code, written with two digits, or the place of a library. Whatever names the library
fills the place. -/
inductive Piece where
  | byte (high low : UInt8) (high_digit : isDigit high = true) (low_digit : isDigit low = true)
  | place (name : List UInt8) (length : name.length = placeholderLength - 2)

namespace Piece

def text : Piece → List UInt8
  | byte high low _ _ => [high, low]
  | place name _ => 0x5F :: 0x5F :: name

/-- What the normal form has for a piece. -/
def shown : Piece → List UInt8
  | byte high low _ _ => [lowerByte high, lowerByte low]
  | place _ _ => zeros placeholderLength

/-- Pieces that deployments may have at one position: digits that differ in case, or places. -/
def Alike : Piece → Piece → Prop
  | byte high low _ _, byte high' low' _ _ =>
      lowerByte high = lowerByte high' ∧ lowerByte low = lowerByte low'
  | place _ _, place _ _ => True
  | _, _ => False

end Piece

def textOf (pieces : List Piece) : List UInt8 :=
  pieces.flatMap Piece.text

def shownOf (pieces : List Piece) : List UInt8 :=
  pieces.flatMap Piece.shown

/-- The address of a library: its bytes, or the place for it. -/
structure Address where
  pieces : List Piece
  length : (textOf pieces).length = 40

/-- How code ends: with a digit that has no partner or right behind a byte, or with metadata, of
which nothing is said but its marker. -/
inductive Ending where
  | plain (digit : Option UInt8) (isDigit : digit.all isDigit = true)
  | metadata (marker rest : List UInt8) (known : marker.map lowerByte ∈ markers)

namespace Ending

def text : Ending → List UInt8
  | plain digit _ => digit.toList
  | metadata marker rest _ => marker ++ rest

/-- What the normal form has for an ending. -/
def shown : Ending → List UInt8
  | plain digit _ => digit.toList.map lowerByte
  | metadata _ _ _ => []

def isMetadata : Ending → Bool
  | plain _ _ => false
  | metadata _ _ _ => true

/-- Endings that deployments may have: what follows a marker does not count. -/
def Alike : Ending → Ending → Prop
  | plain digit _, plain digit' _ => digit.map lowerByte = digit'.map lowerByte
  | metadata marker _ _, metadata marker' _ _ => marker.map lowerByte = marker'.map lowerByte
  | _, _ => False

end Ending

/-- Code before its ending. The guard of a library, if there is one, pushes its address and compares
it with the running one. -/
def piecesOf : Option Address → List Piece → List Piece
  | none, body => body
  | some address, body =>
      .byte 0x37 0x33 rfl rfl :: (address.pieces ++
        .byte 0x33 0x30 rfl rfl :: .byte 0x31 0x34 rfl rfl :: body)

/-- A text of code, as it is compiled or deployed. -/
structure CodeText where
  lead : List UInt8
  lead_known : lead ∈ [[], [0x30, 0x78], [0x30, 0x58]]
  address : Option Address
  body : List Piece
  ending : Ending

/-- Whether no marker starts at a piece. Letters that places hold do not count. -/
def Unmarked (body : List Piece) : Prop :=
  ∀ back ∈ body.tails, startsWithMarker ((textOf back).map lowerByte) = false

instance (body : List Piece) : Decidable (Unmarked body) :=
  List.decidableBAll _ _

namespace CodeText

variable (code other : CodeText)

def pieces : List Piece :=
  piecesOf code.address code.body

def text : List UInt8 :=
  code.lead ++ (textOf code.pieces ++ code.ending.text)

/-- Whether metadata has 23 bytes of code or more before it. -/
def Long : Prop :=
  code.ending.isMetadata = true → 46 ≤ (textOf code.pieces).length

instance : Decidable code.Long :=
  inferInstanceAs (Decidable (_ → _))

/-- Whether the marker that ends the code is the first one, and is not too near its start. -/
structure Regular : Prop where
  unmarked : Unmarked code.body
  long : code.Long

/-- Whether two texts differ in nothing but what deployments may differ in: prefix, case, what fills
the places, the address of the guard, and all behind the marker. -/
structure Redeployed : Prop where
  guard : code.address.isSome = other.address.isSome
  body : List.Forall₂ Piece.Alike code.body other.body
  ending : code.ending.Alike other.ending

end CodeText

/-! ### Digits -/

theorem isDigit_lowerByte {byte : UInt8} (digit : isDigit byte = true) :
    isDigit (lowerByte byte) = true ∧ lowerByte byte ≠ 0x5F ∧ lowerByte byte ≠ 0x78 := by
  unfold isDigit Hex.digit? lowerByte at *
  grind

/-- Whether a text is digits in lower case alone. -/
def Plain (text : List UInt8) : Prop :=
  ∀ byte ∈ text, isDigit byte = true ∧ lowerByte byte = byte

theorem plain_lowerByte {byte : UInt8} (digit : isDigit byte = true) :
    isDigit (lowerByte byte) = true ∧ lowerByte (lowerByte byte) = lowerByte byte :=
  ⟨(isDigit_lowerByte digit).1, lowerByte_lowerByte byte⟩

theorem plain_zeros (count : Nat) : Plain (zeros count) := by
  intro byte within
  rw [List.eq_of_mem_replicate within]
  decide

theorem plain_append {text after : List UInt8} :
    Plain (text ++ after) ↔ Plain text ∧ Plain after :=
  List.forall_mem_append

theorem Plain.zeroGuard {text : List UInt8} (plain : Plain text) : Plain (zeroGuard text) := by
  rcases zeroGuard_cases text with ⟨address, rest, length, rfl, zeroed⟩ | ⟨-, same⟩
  · rw [zeroed]
    simp only [guarded, plain_append] at plain ⊢
    exact ⟨plain.1, plain_zeros 40, plain.2.2⟩
  · rw [same]
    exact plain

theorem Plain.bare {text : List UInt8} (plain : Plain text) : Bare text := by
  intro second found
  exact (isDigit_lowerByte (plain second (List.mem_of_getElem? found)).1).2.2

theorem Plain.map_lowerByte {text : List UInt8} (plain : Plain text) :
    text.map lowerByte = text :=
  (List.map_congr_left fun byte within => (plain byte within).2).trans (List.map_id' text)

theorem Plain.masked {text : List UInt8} (plain : Plain text) : masked text = text := by
  apply masked_eq_self
  intro within
  exact absurd (plain _ within).1 (by decide)

/-- Digits in lower case are in normal form when they have neither a guard nor a marker. -/
theorem Plain.normalize {text : List UInt8} (plain : Plain text) :
    normalize text = beforeMarker (Bytecode.zeroGuard text) := by
  rw [Bytecode.normalize, plain.bare.stripPrefix, plain.map_lowerByte,
    zeroPlaceholders_eq plain.bare, plain.masked]

/-! ### Pieces -/

theorem plain_shownOf (pieces : List Piece) : Plain (shownOf pieces) := by
  intro byte within
  obtain ⟨piece, -, shown⟩ := List.mem_flatMap.mp within
  cases piece with
  | byte high low highDigit lowDigit =>
      rcases List.mem_pair.mp shown with rfl | rfl
      · exact plain_lowerByte highDigit
      · exact plain_lowerByte lowDigit
  | place name length => exact plain_zeros _ byte shown

theorem length_shownOf (pieces : List Piece) : (shownOf pieces).length = (textOf pieces).length := by
  induction pieces with
  | nil => rfl
  | cons piece pieces ih =>
      rw [shownOf, textOf, List.flatMap_cons, List.flatMap_cons, List.length_append,
        List.length_append]
      congr 1
      cases piece with
      | byte => rfl
      | place name length => simp [Piece.shown, Piece.text, length, placeholderLength]

/-- Pieces end on a byte boundary. -/
theorem even_shownOf (pieces : List Piece) : (shownOf pieces).length % 2 = 0 := by
  induction pieces with
  | nil => rfl
  | cons piece pieces ih =>
      show (piece.shown ++ shownOf pieces).length % 2 = 0
      rw [List.length_append, Nat.add_mod, ih, Nat.add_zero, Nat.mod_mod]
      cases piece with
      | byte high low => exact Nat.mod_self 2
      | place name => rw [Piece.shown, length_zeros, placeholderLength]

theorem shownOf_alike {pieces others : List Piece} (alike : List.Forall₂ Piece.Alike pieces others) :
    shownOf pieces = shownOf others := by
  induction alike with
  | nil => rfl
  | @cons piece other pieces others same rest ih =>
      have first : piece.shown = other.shown := by
        cases piece <;> cases other
        · exact congrArg₂ (fun high low => [high, low]) same.1 same.2
        · cases same
        · cases same
        · rfl
      exact congrArg₂ (· ++ ·) first ih

/-- Zeros are written over the places among pieces, however the code goes on. -/
theorem masked_textOf (pieces : List Piece) (after : List UInt8) :
    masked ((textOf pieces).map lowerByte ++ after) = shownOf pieces ++ masked after := by
  induction pieces with
  | nil => rfl
  | cons piece pieces ih =>
      cases piece with
      | byte high low highDigit lowDigit =>
          exact (masked_byte (isDigit_lowerByte highDigit).2.1 _ _).trans
            (congrArg (fun rest => lowerByte high :: lowerByte low :: rest) ih)
      | place name length =>
          have length : (name.map lowerByte).length = placeholderLength - 2 := by
            rw [List.length_map, length]
          have place := masked_place length ((textOf pieces).map lowerByte ++ after)
          rw [ih, ← List.append_assoc] at place
          simp only [textOf, shownOf, List.flatMap_cons, List.map_append, List.append_assoc] at *
          exact place

/-! ### Markers among pieces -/

/-- What may follow pieces so that no marker starts within them and ends behind them: a marker, or
less than a byte. -/
def Soft (after : List UInt8) : Prop :=
  after.length ≤ 1 ∨ after.head? = some 0x61

/-- The rest of a marker that stands in the normal form stands in the text of the pieces. -/
theorem prefix_textOf {pieces : List Piece} {after rest : List UInt8} (soft : Soft after)
    (within : inner rest = true) (shown : rest <+: shownOf pieces ++ after) :
    rest <+: (textOf pieces).map lowerByte := by
  induction pieces generalizing rest with
  | nil =>
      match rest, within with
      | [], _ => exact List.nil_prefix
      | high :: low :: rest, within =>
          -- What follows starts as a marker does, and the rest of a marker does not.
          have shown : high :: low :: rest <+: after := shown
          obtain ⟨behind, rfl⟩ := shown
          rcases soft with short | starts
          · simp at short
          · cases starts
            cases within
  | cons piece pieces ih =>
      match rest, within with
      | [], _ => exact List.nil_prefix
      | high :: low :: rest, within =>
          simp only [inner, Bool.and_eq_true, bne_iff_ne] at within
          cases piece with
          | byte first second _ _ =>
              obtain ⟨same, shown⟩ := List.cons_prefix_cons.mp shown
              obtain ⟨same', shown⟩ := List.cons_prefix_cons.mp shown
              have behind := ih within.2 shown
              exact List.cons_prefix_cons.mpr ⟨same, List.cons_prefix_cons.mpr ⟨same', behind⟩⟩
          | place name length =>
              -- The normal form has zeros here, and no pair of the rest starts with one.
              exact absurd (List.cons_prefix_cons.mp shown).1 within.1.1.2

theorem clear_shownOf {pieces : List Piece} (unmarked : Unmarked pieces) {after : List UInt8}
    (soft : Soft after) : Clear after (shownOf pieces) := by
  induction pieces with
  | nil => trivial
  | cons piece pieces ih =>
      have rest := ih fun back within => unmarked back (List.mem_cons_of_mem _ within)
      cases piece with
      | place name length => exact rest.zeros 20
      | byte high low highDigit lowDigit =>
          refine ⟨Bool.eq_false_iff.mpr fun starts => ?_, rest⟩
          obtain ⟨marker, known, start⟩ := startsWithMarker_iff.mp starts
          obtain ⟨second, others, rfl, within⟩ := markers_inner known
          obtain ⟨same, start⟩ := List.cons_prefix_cons.mp start
          obtain ⟨same', start⟩ := List.cons_prefix_cons.mp start
          have stands : 0x61 :: second :: others <+:
              (textOf (.byte high low highDigit lowDigit :: pieces)).map lowerByte :=
            List.cons_prefix_cons.mpr ⟨same, List.cons_prefix_cons.mpr
              ⟨same', prefix_textOf soft within start⟩⟩
          have none := unmarked _ List.mem_cons_self
          rw [startsWithMarker_iff.mpr ⟨_, known, stands⟩] at none
          cases none

theorem shownOf_guard (address : Address) (body : List Piece) :
    shownOf (piecesOf (some address) body) = guarded (shownOf address.pieces) (shownOf body) := by
  simp only [shownOf, piecesOf, List.flatMap_cons, List.flatMap_append]
  rfl

theorem length_shownAddress (address : Address) : (shownOf address.pieces).length = 40 := by
  rw [length_shownOf, address.length]

/-! ### Texts of code -/

theorem bare_textOf (pieces : List Piece) {after : List UInt8}
    (some : pieces = [] → after.length ≤ 1) : Bare (textOf pieces ++ after) := by
  intro second found
  match pieces with
  | [] =>
      have short := some rfl
      rw [textOf, List.flatMap_nil, List.nil_append, List.getElem?_eq_none short] at found
      cases found
  | .byte high low highDigit lowDigit :: pieces =>
      cases found
      exact (isDigit_lowerByte lowDigit).2.2
  | .place name length :: pieces =>
      cases found
      decide

namespace Ending

/-- What is left of an ending when places have been zeroed. -/
def rest (ending : Ending) : List UInt8 :=
  masked (ending.text.map lowerByte)

theorem length_shown (ending : Ending) : ending.shown.length ≤ 1 := by
  cases ending with
  | plain digit isDigit => cases digit <;> simp [shown]
  | metadata marker rest known => exact Nat.zero_le 1

theorem rest_plain {digit : Option UInt8} (isDigit : digit.all isDigit = true) :
    (plain digit isDigit).rest = (plain digit isDigit).shown :=
  masked_short (length_shown (plain digit isDigit))

theorem rest_metadata {marker rest : List UInt8} (known : marker.map lowerByte ∈ markers) :
    (metadata marker rest known).rest = marker.map lowerByte ++ masked (rest.map lowerByte) := by
  rw [Ending.rest, text, List.map_append, masked_marker known]

theorem soft_rest (ending : Ending) : Soft ending.rest := by
  cases ending with
  | plain digit isDigit =>
      rw [rest_plain]
      exact .inl (length_shown _)
  | metadata marker rest known =>
      obtain ⟨second, behind, starts, -⟩ := markers_inner known
      rw [rest_metadata, starts]
      exact .inr rfl

/-- The cut leaves nothing of metadata, and all of another ending. -/
theorem beforeMarker_rest {ending : Ending} {text : List UInt8} (clear : Clear ending.rest text) :
    beforeMarker (text ++ ending.rest) = text ++ ending.shown := by
  cases ending with
  | plain digit isDigit =>
      rw [rest_plain] at clear ⊢
      exact beforeMarker_append_short (length_shown _) clear
  | metadata marker rest known =>
      rw [rest_metadata] at clear ⊢
      rw [beforeMarker_append_marker known _ clear]
      exact (List.append_nil text).symm

theorem length_rest {ending : Ending} (plain : ending.isMetadata = false) :
    ending.rest.length ≤ 1 := by
  cases ending with
  | plain digit isDigit =>
      rw [rest_plain]
      exact length_shown _
  | metadata marker rest known => cases plain

theorem plain_shown (ending : Ending) : Plain ending.shown := by
  cases ending with
  | plain digit isDigit =>
      intro byte within
      cases digit with
      | none => cases within
      | some digit =>
          rw [List.mem_singleton.mp within]
          exact plain_lowerByte isDigit
  | metadata marker rest known => exact List.forall_mem_nil _

theorem Alike.shown {ending other : Ending} (alike : ending.Alike other) :
    ending.shown = other.shown := by
  cases ending <;> cases other
  · show List.map lowerByte _ = List.map lowerByte _
    rw [← Option.toList_map, ← Option.toList_map]
    exact congrArg Option.toList alike
  · cases alike
  · cases alike
  · rfl

theorem Alike.isMetadata {ending other : Ending} (alike : ending.Alike other) :
    ending.isMetadata = other.isMetadata := by
  cases ending <;> cases other
  · rfl
  · cases alike
  · cases alike
  · rfl

end Ending

/-- Whether there is a guard does not depend on the ending, if the code before metadata is as long
as a guard. -/
theorem zeroGuard_shownOf {pieces : List Piece} {after : List UInt8}
    (long : 46 ≤ (textOf pieces).length ∨ after.length ≤ 1) :
    zeroGuard (shownOf pieces ++ after) = zeroGuard (shownOf pieces) ++ after := by
  apply zeroGuard_append
  have even := even_shownOf pieces
  have length := length_shownOf pieces
  rw [List.length_append]
  omega

namespace CodeText

variable {code other : CodeText}

/-- What the normal form has before the ending: what it has for each piece, and zeros for the address
of a guard. -/
def shown (code : CodeText) : List UInt8 :=
  zeroGuard (shownOf code.pieces)

theorem length_shown (code : CodeText) : code.shown.length = (textOf code.pieces).length := by
  rw [shown, length_zeroGuard, length_shownOf]

/-- In the normal form no marker starts before the ending. -/
theorem clear_shown (unmarked : Unmarked code.body) {after : List UInt8} (soft : Soft after) :
    Clear after code.shown := by
  have clear := clear_shownOf unmarked soft
  unfold shown pieces
  cases code.address with
  | none => exact clear.zeroGuard
  | some address =>
      rw [shownOf_guard, zeroGuard_guarded (length_shownAddress address)]
      exact clear.guarded

theorem bare_text (long : code.Long) :
    Bare (textOf code.pieces ++ code.ending.text) := by
  apply bare_textOf
  intro none
  cases same : code.ending with
  | plain digit isDigit => cases digit <;> simp [Ending.text]
  | metadata marker rest known =>
      have least := long (by rw [same]; rfl)
      rw [none] at least
      cases least

theorem stripPrefix_text (long : code.Long) :
    Hex.stripPrefix code.text = textOf code.pieces ++ code.ending.text :=
  (bare_text long).stripPrefix_lead code.lead_known

/-- The normal form of code. -/
theorem normalize_text (clear : ∀ {after}, Soft after → Clear after code.shown)
    (long : code.Long) :
    normalize code.text = code.shown ++ code.ending.shown := by
  have enough : 46 ≤ (textOf code.pieces).length ∨ code.ending.rest.length ≤ 1 := by
    cases kind : code.ending.isMetadata with
    | true => exact .inl (long kind)
    | false => exact .inr (Ending.length_rest kind)
  calc normalize code.text
      = beforeMarker (zeroGuard
          (masked ((textOf code.pieces ++ code.ending.text).map lowerByte))) := by
        rw [normalize, stripPrefix_text long, zeroPlaceholders_eq (bare_text long).map_lowerByte]
    _ = beforeMarker (zeroGuard (shownOf code.pieces ++ code.ending.rest)) := by
        rw [List.map_append, masked_textOf]
        rfl
    _ = beforeMarker (code.shown ++ code.ending.rest) := by
        rw [zeroGuard_shownOf enough]
        rfl
    _ = code.shown ++ code.ending.shown := by
        exact Ending.beforeMarker_rest (clear (Ending.soft_rest _))

/-- A normal form is its own normal form. -/
theorem normalize_shown (unmarked : Unmarked code.body) :
    normalize (code.shown ++ code.ending.shown) = code.shown ++ code.ending.shown := by
  have short := Ending.length_shown code.ending
  have plain : Plain (code.shown ++ code.ending.shown) :=
    plain_append.mpr ⟨(plain_shownOf code.pieces).zeroGuard, Ending.plain_shown code.ending⟩
  have guard : zeroGuard (code.shown ++ code.ending.shown) = code.shown ++ code.ending.shown := by
    rw [zeroGuard_append]
    · rw [shown, zeroGuard_zeroGuard]
    · have even := even_shownOf code.pieces
      have length := length_shown code
      have length' := length_shownOf code.pieces
      rw [List.length_append]
      omega
  rw [plain.normalize, guard, beforeMarker_append_short short (clear_shown unmarked (.inl short))]

theorem Redeployed.shown (redeployed : code.Redeployed other) : code.shown = other.shown := by
  have body := shownOf_alike redeployed.body
  have guard := redeployed.guard
  unfold CodeText.shown pieces
  cases here : code.address with
  | none =>
      have there : other.address = none := by simpa [here] using guard.symm
      rw [there]
      exact congrArg zeroGuard body
  | some address =>
      obtain ⟨address', there⟩ : ∃ address', other.address = some address' :=
        Option.isSome_iff_exists.mp (by simpa [here] using guard.symm)
      rw [there, shownOf_guard, shownOf_guard, zeroGuard_guarded (length_shownAddress address),
        zeroGuard_guarded (length_shownAddress address'), body]

/-- The normal form is all digits before the marker, in lower case, with zeros in places and in the
address of a guard. Normalizing is idempotent, and code keeps its identity in every deployment. -/
theorem identity_redeployed (regular : code.Regular) (redeployed : code.Redeployed other) :
    normalize code.text = code.shown ++ code.ending.shown ∧
      normalize (normalize code.text) = normalize code.text ∧
      BytecodeId.ofText code.text = BytecodeId.ofText other.text := by
  have clear {after : List UInt8} (soft : Soft after) : Clear after code.shown :=
    clear_shown regular.unmarked soft
  have long : other.Long := by
    rw [Long, ← length_shown, ← redeployed.shown, ← redeployed.ending.isMetadata, length_shown]
    exact regular.long
  have first := normalize_text clear regular.long
  have second : normalize other.text = other.shown ++ other.ending.shown :=
    normalize_text (fun soft => redeployed.shown ▸ clear soft) long
  refine ⟨first, ?_, ?_⟩
  · rw [first, normalize_shown regular.unmarked]
  · rw [BytecodeId.ofText, BytecodeId.ofText, first, second, redeployed.shown,
      redeployed.ending.shown]

/-- The code of a library that uses another one. The name of the other one would be a marker. -/
def compiled : CodeText where
  lead := [0x30, 0x78]
  lead_known := by decide
  address := some ⟨List.replicate 20 (.byte 0x30 0x30 rfl rfl), by decide⟩
  body := [.byte 0x36 0x30 rfl rfl,
    .place (Text.utf8 "a264736f6c63__________________________") (by decide),
    .byte 0x46 0x33 rfl rfl]
  ending := .metadata (Text.utf8 "a264736f6c63") (Text.utf8 "430008__") (by decide)

/-- The same code at an address that has a marker in it. -/
def deployed : CodeText where
  lead := []
  lead_known := by decide
  address := some ⟨[.byte 0x61 0x32 rfl rfl, .byte 0x36 0x34 rfl rfl, .byte 0x37 0x33 rfl rfl,
    .byte 0x36 0x66 rfl rfl, .byte 0x36 0x63 rfl rfl, .byte 0x36 0x33 rfl rfl] ++
      List.replicate 14 (.byte 0x62 0x43 rfl rfl), by decide⟩
  body := [.byte 0x36 0x30 rfl rfl,
    .place (Text.utf8 "$1234567890abcdef1234567890abcdef12$__") (by decide),
    .byte 0x66 0x33 rfl rfl]
  ending := .metadata (Text.utf8 "A264736F6C63") (Text.utf8 "4a") (by decide)

theorem identity_redeployed_library :
    BytecodeId.ofText (Text.utf8 ("0x730000000000000000000000000000000000000000301460" ++
      "__a264736f6c63__________________________F3a264736f6c63430008__")) =
    BytecodeId.ofText (Text.utf8 ("73a264736f6c63bCbCbCbCbCbCbCbCbCbCbCbCbCbC301460" ++
      "__$1234567890abcdef1234567890abcdef12$__f3A264736F6C634a")) := by
  have texts : compiled.text = Text.utf8 ("0x730000000000000000000000000000000000000000301460" ++
      "__a264736f6c63__________________________F3a264736f6c63430008__") := by decide +kernel
  have texts' : deployed.text = Text.utf8 ("73a264736f6c63bCbCbCbCbCbCbCbCbCbCbCbCbCbC301460" ++
      "__$1234567890abcdef1234567890abcdef12$__f3A264736F6C634a") := by decide +kernel
  have regular : compiled.Regular := ⟨by decide, by decide⟩
  have redeployed : compiled.Redeployed deployed :=
    ⟨rfl, .cons ⟨rfl, rfl⟩ (.cons trivial (.cons ⟨by decide, rfl⟩ .nil)), by
      show List.map _ _ = List.map _ _
      decide⟩
  rw [← texts, ← texts']
  exact (identity_redeployed regular redeployed).2.2

end CodeText

end SolTrace.Bytecode
