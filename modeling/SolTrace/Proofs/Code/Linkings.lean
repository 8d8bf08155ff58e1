import SolTrace.Proofs.Code.Deployments
/-!
Unlinked code and its linkings. The places of a library are found in the unlinked code, and zeros
are written over what linked code has there. The two are then compared in normal form, so that code
is accepted with any addresses in its places, and refused where it differs anywhere else.
-/
set_option autoImplicit false

namespace SolTrace.Bytecode

/-! ### Where places are -/

theorem Piece.length_place {name : List UInt8} (length : name.length = placeholderLength - 2) :
    (Piece.place name length).text.length = placeholderLength := by
  simp [Piece.text, length, placeholderLength]

/-- Where the places among pieces start, if the pieces themselves start at `position`. -/
def placesFrom : Nat → List Piece → List Nat
  | _, [] => []
  | position, .byte _ _ _ _ :: pieces => placesFrom (position + 2) pieces
  | position, .place _ _ :: pieces => position :: placesFrom (position + placeholderLength) pieces

theorem placesFrom_bounds {pieces : List Piece} {position start : Nat}
    (listed : start ∈ placesFrom position pieces) :
    position ≤ start ∧ start + placeholderLength ≤ position + (textOf pieces).length := by
  induction pieces generalizing position with
  | nil => cases listed
  | cons piece pieces ih =>
      rw [textOf, List.flatMap_cons, List.length_append]
      cases piece with
      | byte high low highDigit lowDigit =>
          have bounds := ih listed
          simp only [Piece.text, textOf, List.length_cons, List.length_nil] at bounds ⊢
          omega
      | place name length =>
          simp only [Piece.text, textOf, List.length_cons, length, placeholderLength] at ih ⊢
          rcases List.mem_cons.mp listed with rfl | listed
          · omega
          · have bounds := ih listed
            simp only [placeholderLength] at bounds
            omega

theorem placeholdersFrom_byte {high : UInt8} (digit : high ≠ 0x5F) (low : UInt8) (position : Nat)
    (text : List UInt8) :
    placeholdersFrom position (high :: low :: text) = placeholdersFrom (position + 2) text := by
  rw [placeholdersFrom]
  intro first
  exact absurd first digit

theorem placeholdersFrom_place {name : List UInt8} (length : name.length = placeholderLength - 2)
    (position : Nat) (text : List UInt8) :
    placeholdersFrom position (0x5F :: 0x5F :: (name ++ text)) =
      position :: placeholdersFrom (position + placeholderLength) text := by
  rw [placeholdersFrom, if_pos (by rw [List.length_append]; omega), List.drop_left' length]

/-- The places that are found are those of the pieces, and those behind them. -/
theorem placeholdersFrom_textOf (pieces : List Piece) (position : Nat) (after : List UInt8) :
    placeholdersFrom position (textOf pieces ++ after) =
      placesFrom position pieces ++
        placeholdersFrom (position + (textOf pieces).length) after := by
  induction pieces generalizing position with
  | nil => rfl
  | cons piece pieces ih =>
      rw [textOf, List.flatMap_cons, List.append_assoc, List.length_append, ← Nat.add_assoc]
      cases piece with
      | byte high low highDigit lowDigit =>
          have digit : high ≠ 0x5F := by
            rintro rfl
            exact absurd highDigit (by decide)
          exact (placeholdersFrom_byte digit low position _).trans (ih (position + 2))
      | place name length =>
          have whole := placeholdersFrom_place length position (textOf pieces ++ after)
          rw [ih] at whole
          rw [Piece.length_place]
          exact whole

theorem le_of_mem_placeholdersFrom {position start : Nat} {text : List UInt8}
    (listed : start ∈ placeholdersFrom position text) : position ≤ start := by
  fun_induction placeholdersFrom position text with
  | case1 position text fits ih =>
      rcases List.mem_cons.mp listed with rfl | listed
      · exact Nat.le_refl _
      · have behind := ih listed
        omega
  | case2 => cases listed
  | case3 position high low text apart ih =>
      have behind := ih listed
      omega
  | case4 => cases listed

/-! ### Endings -/

namespace Ending

/-- The marker of metadata, or the digit that has no partner. -/
def head : Ending → List UInt8
  | plain digit _ => digit.toList
  | metadata marker _ _ => marker

/-- The digit that has no partner. -/
def digits : Ending → List UInt8
  | plain digit _ => digit.toList
  | metadata _ _ _ => []

theorem shown_eq (ending : Ending) : ending.shown = ending.digits.map lowerByte := by
  cases ending <;> rfl

theorem length_digits_le (ending : Ending) : ending.digits.length ≤ ending.head.length := by
  cases ending with
  | plain digit isDigit => exact Nat.le_refl _
  | metadata marker rest known => exact Nat.zero_le _

theorem placeholdersFrom_marker {marker : List UInt8} (known : marker.map lowerByte ∈ markers)
    (position : Nat) (rest : List UInt8) :
    placeholdersFrom position (marker ++ rest) =
      placeholdersFrom (position + marker.length) rest := by
  have even : marker.length % 2 = 0 := by
    have all : ∀ marker ∈ markers, marker.length % 2 = 0 := by decide
    have length := all _ known
    rwa [List.length_map] at length
  have digits : ∀ byte ∈ marker, byte ≠ 0x5F := by
    rintro _ within rfl
    have all : ∀ marker ∈ markers, 0x5F ∉ marker := by decide
    exact all _ known (List.mem_map_of_mem within)
  clear known
  induction marker using List.twoStepInduction generalizing position with
  | nil => rfl
  | singleton only => cases even
  | cons_cons high low marker ih _ =>
      rw [List.cons_append, List.cons_append,
        placeholdersFrom_byte (digits high List.mem_cons_self), ih]
      · rw [List.length_cons, List.length_cons, Nat.add_assoc, Nat.add_comm 2]
      · rw [List.length_cons, List.length_cons] at even
        omega
      · exact fun byte within =>
          digits byte (List.mem_cons_of_mem _ (List.mem_cons_of_mem _ within))

theorem placeholdersFrom_plain {digit : Option UInt8} (isDigit : digit.all isDigit = true)
    (position : Nat) : placeholdersFrom position (plain digit isDigit).text = [] := by
  cases digit <;> simp [text, placeholdersFrom]

/-- Places in an ending are behind its marker. -/
theorem le_of_mem_placeholdersFrom (ending : Ending) {position start : Nat}
    (listed : start ∈ placeholdersFrom position ending.text) :
    position + ending.head.length ≤ start := by
  cases ending with
  | plain digit isDigit =>
      rw [placeholdersFrom_plain] at listed
      cases listed
  | metadata marker rest known =>
      rw [text, placeholdersFrom_marker known] at listed
      exact Bytecode.le_of_mem_placeholdersFrom listed

end Ending

/-! ### Zeros over places -/

/-- Zeros over what stands where pieces have places. -/
def cover : List Piece → List UInt8 → List UInt8
  | [], text => text
  | .byte _ _ _ _ :: pieces, text => text.take 2 ++ cover pieces (text.drop 2)
  | .place _ _ :: pieces, text =>
      zeros placeholderLength ++ cover pieces (text.drop placeholderLength)

theorem cover_append {pieces : List Piece} {text : List UInt8}
    (length : text.length = (textOf pieces).length) (others : List Piece) (after : List UInt8) :
    cover (pieces ++ others) (text ++ after) = cover pieces text ++ cover others after := by
  induction pieces generalizing text with
  | nil =>
      rw [List.eq_nil_of_length_eq_zero length]
      rfl
  | cons piece pieces ih =>
      rw [textOf, List.flatMap_cons, List.length_append] at length
      cases piece with
      | byte high low highDigit lowDigit =>
          have long : 2 ≤ text.length := length ▸ Nat.le_add_right 2 _
          have rest : (text.drop 2).length = (textOf pieces).length := by
            rw [List.length_drop, length]
            exact Nat.add_sub_cancel_left ..
          rw [List.cons_append, cover, cover, List.take_append_of_le_length long,
            List.drop_append_of_le_length long, ih rest, List.append_assoc]
      | place name size =>
          rw [Piece.length_place] at length
          have long : placeholderLength ≤ text.length := length ▸ Nat.le_add_right _ _
          have rest : (text.drop placeholderLength).length = (textOf pieces).length := by
            rw [List.length_drop, length]
            exact Nat.add_sub_cancel_left ..
          rw [List.cons_append, cover, cover, List.drop_append_of_le_length long, ih rest,
            List.append_assoc]

theorem length_cover {pieces : List Piece} {text : List UInt8}
    (length : (textOf pieces).length ≤ text.length) : (cover pieces text).length = text.length := by
  induction pieces generalizing text with
  | nil => rfl
  | cons piece pieces ih =>
      rw [textOf, List.flatMap_cons, List.length_append] at length
      cases piece with
      | byte high low highDigit lowDigit =>
          have size : (Piece.byte high low highDigit lowDigit).text.length = 2 := rfl
          rw [cover, List.length_append, ih, List.length_take, List.length_drop]
          · omega
          · rw [List.length_drop, textOf]
            omega
      | place name size =>
          rw [Piece.length_place] at length
          rw [cover, List.length_append, length_zeros, ih, List.length_drop]
          · omega
          · rw [List.length_drop, textOf]
            omega

theorem Plain.cover {text : List UInt8} (plain : Plain text) (pieces : List Piece) :
    Plain (cover pieces text) := by
  induction pieces generalizing text with
  | nil => exact plain
  | cons piece pieces ih =>
      cases piece with
      | byte high low highDigit lowDigit =>
          rw [← List.take_append_drop 2 text, plain_append] at plain
          exact plain_append.mpr ⟨plain.1, ih plain.2⟩
      | place name length =>
          rw [← List.take_append_drop placeholderLength text, plain_append] at plain
          exact plain_append.mpr ⟨plain_zeros _, ih plain.2⟩

/-- Writing zeros over the places of pieces, one after the other, covers what stands there. -/
theorem foldl_overwrite_cover {pieces : List Piece} {text : List UInt8}
    (length : (textOf pieces).length ≤ text.length) (front : List UInt8) :
    (placesFrom front.length pieces).foldl overwrite (front ++ text) =
      front ++ cover pieces text := by
  induction pieces generalizing front text with
  | nil => rfl
  | cons piece pieces ih =>
      rw [textOf, List.flatMap_cons, List.length_append] at length
      cases piece with
      | byte high low highDigit lowDigit =>
          have size : (Piece.byte high low highDigit lowDigit).text.length = 2 := rfl
          have long : (textOf pieces).length ≤ (text.drop 2).length := by
            rw [List.length_drop, textOf]
            omega
          have rest := ih long (front ++ text.take 2)
          have moved : (front ++ text.take 2).length = front.length + 2 := by
            rw [List.length_append, List.length_take]
            omega
          rw [moved, List.append_assoc, List.append_assoc, List.take_append_drop] at rest
          exact rest
      | place name size =>
          rw [Piece.length_place] at length
          have long : (textOf pieces).length ≤ (text.drop placeholderLength).length := by
            rw [List.length_drop, textOf]
            omega
          have rest := ih long (front ++ zeros placeholderLength)
          rw [List.length_append, length_zeros, List.append_assoc, List.append_assoc] at rest
          rw [placesFrom, List.foldl_cons, overwrite_append]
          exact rest

/-- Zeros written behind a text leave it alone. -/
theorem foldl_overwrite_behind {front : List UInt8} {starts : List Nat}
    (behind : ∀ start ∈ starts, front.length ≤ start) (text : List UInt8) :
    ∃ rest, starts.foldl overwrite (front ++ text) = front ++ rest := by
  induction starts generalizing text with
  | nil => exact ⟨text, rfl⟩
  | cons start starts ih =>
      have first := behind start List.mem_cons_self
      have same : overwrite (front ++ text) start = front ++ (text.take (start - front.length) ++
          (zeros placeholderLength ++ (front ++ text).drop (start + placeholderLength))) := by
        rw [overwrite, List.take_append, List.take_of_length_le first, List.append_assoc,
          List.append_assoc]
      rw [List.foldl_cons, same]
      exact ih (fun other within => behind other (List.mem_cons_of_mem _ within)) _

/-! ### Linked code -/

/-- Digits that are pieces with an address in every place. -/
inductive Filled : List Piece → List UInt8 → Prop
  | nil : Filled [] []
  | byte {high low high' low' : UInt8} {highDigit : isDigit high = true}
      {lowDigit : isDigit low = true} {pieces : List Piece} {digits : List UInt8}
      (same : lowerByte high = lowerByte high') (same' : lowerByte low = lowerByte low')
      (rest : Filled pieces digits) :
      Filled (.byte high low highDigit lowDigit :: pieces) (high' :: low' :: digits)
  | place {name : List UInt8} {length : name.length = placeholderLength - 2} {pieces : List Piece}
      {address digits : List UInt8} (size : address.length = placeholderLength)
      (hex : address.all isDigit = true) (rest : Filled pieces digits) :
      Filled (.place name length :: pieces) (address ++ digits)

theorem Filled.length {pieces : List Piece} {digits : List UInt8} (filled : Filled pieces digits) :
    digits.length = (textOf pieces).length := by
  induction filled with
  | nil => rfl
  | byte same same' rest ih => exact congrArg (· + 1 + 1) ih
  | @place name length pieces address digits size hex rest ih =>
      rw [textOf, List.flatMap_cons, List.length_append, List.length_append, ih, size,
        Piece.length_place]
      rfl

/-- Whatever the addresses are, zeros over them are what the unlinked code has in normal form. -/
theorem Filled.cover {pieces : List Piece} {digits : List UInt8} (filled : Filled pieces digits)
    (after : List UInt8) :
    cover pieces (digits.map lowerByte ++ after) = shownOf pieces ++ after := by
  induction filled with
  | nil => rfl
  | @byte high low high' low' highDigit lowDigit pieces digits same same' rest ih =>
      show lowerByte high' :: lowerByte low' :: _ = lowerByte high :: lowerByte low :: _
      rw [same, same']
      exact congrArg (lowerByte high' :: lowerByte low' :: ·) ih
  | @place name length pieces address digits size hex rest ih =>
      have size : (address.map lowerByte).length = placeholderLength := by
        rw [List.length_map, size]
      rw [Bytecode.cover, List.map_append, List.append_assoc, List.drop_left' size, ih]
      exact (List.append_assoc ..).symm

/-! ### Guards -/

theorem textOf_guard (address : Address) (body : List Piece) :
    textOf (piecesOf (some address) body) = guarded (textOf address.pieces) (textOf body) := by
  simp only [textOf, piecesOf, List.flatMap_cons, List.flatMap_append]
  rfl

theorem map_guarded (address rest : List UInt8) :
    (guarded address rest).map lowerByte =
      guarded (address.map lowerByte) (rest.map lowerByte) := by
  simp only [guarded, List.map_append]
  rfl

theorem cover_guard {address : Address} {text : List UInt8}
    (length : text.length = (textOf address.pieces).length) (body : List Piece)
    (rest : List UInt8) :
    cover (piecesOf (some address) body) (guarded text rest) =
      guarded (cover address.pieces text) (cover body rest) :=
  congrArg ([0x37, 0x33] ++ ·) (cover_append length _ _)

instance (text : List UInt8) : Decidable (Plain text) :=
  List.decidableBAll _ _

namespace CodeText

/-- Whether a text is a linking of unlinked code. It has any address in each place and in the guard
of a library, and may differ in prefix, in case and in all behind the marker. -/
structure LinkedAs (code linked : CodeText) : Prop where
  guard : code.address.isSome = linked.address.isSome
  address : ∀ address, linked.address = some address → (textOf address.pieces).all isDigit = true
  body : Filled code.body (textOf linked.body)
  ending : code.ending.Alike linked.ending

variable {code linked : CodeText}

theorem LinkedAs.length (linkedAs : code.LinkedAs linked) :
    (textOf linked.pieces).length = (textOf code.pieces).length := by
  have guard := linkedAs.guard
  have body := linkedAs.body.length
  unfold pieces
  cases here : code.address <;> cases there : linked.address
  · exact body
  · rw [here, there] at guard; cases guard
  · rw [here, there] at guard; cases guard
  · next address address' =>
      simp only [textOf] at body
      simp only [piecesOf, textOf, List.flatMap_cons, List.flatMap_append, List.length_append, body]
      have length := address.length
      have length' := address'.length
      simp only [textOf] at length length'
      rw [length, length']

theorem LinkedAs.long (linkedAs : code.LinkedAs linked) (long : code.Long) : linked.Long := by
  rw [Long, linkedAs.length, ← linkedAs.ending.isMetadata]
  exact long

/-- Zeros over the addresses in the places of linked code leave digits that are, but for the address
of a guard, those of the unlinked code in normal form. -/
theorem LinkedAs.cover (linkedAs : code.LinkedAs linked) (after : List UInt8) :
    ∃ front, Plain front ∧ zeroGuard front = code.shown ∧
      cover code.pieces ((textOf linked.pieces).map lowerByte ++ after) = front ++ after := by
  have guard := linkedAs.guard
  have body := linkedAs.body.cover after
  unfold shown pieces
  cases here : code.address <;> cases there : linked.address
  · exact ⟨_, plain_shownOf _, rfl, body⟩
  · rw [here, there] at guard; cases guard
  · rw [here, there] at guard; cases guard
  · next address address' =>
      have size : ((textOf address'.pieces).map lowerByte).length =
          (textOf address.pieces).length := by
        rw [List.length_map, address.length, address'.length]
      have digits : Plain ((textOf address'.pieces).map lowerByte) := by
        refine List.forall_mem_map.mpr fun digit within => plain_lowerByte ?_
        exact List.all_eq_true.mp (linkedAs.address address' there) digit within
      refine ⟨guarded (Bytecode.cover address.pieces ((textOf address'.pieces).map lowerByte))
        (shownOf code.body), ?_, ?_, ?_⟩
      · simp only [guarded, plain_append]
        exact ⟨by decide, digits.cover _, by decide, plain_shownOf _⟩
      · rw [shownOf_guard, zeroGuard_guarded, zeroGuard_guarded (length_shownAddress address)]
        rw [length_cover (Nat.le_of_eq size.symm), size, address.length]
      · rw [textOf_guard, map_guarded, guarded_append, cover_guard size, body, guarded_append]

/-! ### Acceptance -/

theorem exists_bytes {text : List UInt8} (plain : Plain text) (even : text.length % 2 = 0) :
    ∃ pieces, textOf pieces = text ∧ shownOf pieces = text := by
  induction text using List.twoStepInduction with
  | nil => exact ⟨[], rfl, rfl⟩
  | singleton only => cases even
  | cons_cons high low text ih _ =>
      obtain ⟨first, plain⟩ := List.forall_mem_cons.mp plain
      obtain ⟨second, plain⟩ := List.forall_mem_cons.mp plain
      rw [List.length_cons, List.length_cons] at even
      obtain ⟨pieces, same, same'⟩ := ih plain (by omega)
      refine ⟨.byte high low first.1 second.1 :: pieces, congrArg (high :: low :: ·) same, ?_⟩
      show lowerByte high :: lowerByte low :: shownOf pieces = _
      rw [first.2, second.2, same']

/-- Digits that are those of code but for the address of a guard have its normal form. -/
theorem normalize_front (regular : code.Regular) {front : List UInt8} (plain : Plain front)
    (zeroed : zeroGuard front = code.shown) {ending : Ending} (alike : code.ending.Alike ending) :
    normalize (front ++ ending.text) = normalize code.text := by
  have clear {after : List UInt8} (soft : Soft after) : Clear after code.shown :=
    clear_shown regular.unmarked soft
  have length : front.length = (textOf code.pieces).length := by
    rw [← length_zeroGuard, zeroed, length_shown]
  obtain ⟨pieces, same, same'⟩ := exists_bytes plain (by
    rw [length, ← length_shownOf]
    exact even_shownOf code.pieces)
  let other : CodeText := ⟨[], by decide, none, pieces, ending⟩
  have shown : other.shown = code.shown := by
    rw [← zeroed, ← same']
    rfl
  have long : other.Long := by
    intro isMetadata
    show 46 ≤ (textOf pieces).length
    rw [same, length]
    exact regular.long (alike.isMetadata.trans isMetadata)
  have text : other.text = front ++ ending.text := congrArg (· ++ ending.text) same
  rw [← text, normalize_text (fun soft => shown ▸ clear soft) long, shown,
    normalize_text clear regular.long, alike.shown]

/-- Zeros over places behind the marker of metadata leave a like ending. -/
theorem overwritten {ending other : Ending} (alike : ending.Alike other) (front : List UInt8)
    {starts : List Nat}
    (listed : ∀ start ∈ starts, start ∈ placeholdersFrom front.length ending.text) :
    ∃ last, ending.Alike last ∧
      starts.foldl overwrite (front ++ other.text.map lowerByte) = front ++ last.text := by
  have behind : ∀ start ∈ starts, front.length + ending.head.length ≤ start :=
    fun start within => ending.le_of_mem_placeholdersFrom (listed start within)
  cases ending <;> cases other
  · next digit isDigit digit' isDigit' =>
      have none : starts = [] := by
        apply List.eq_nil_iff_forall_not_mem.mpr
        intro start within
        have found := listed start within
        rw [Ending.placeholdersFrom_plain] at found
        cases found
      have hex : (digit'.map lowerByte).all Bytecode.isDigit = true := by
        cases digit' with
        | none => rfl
        | some digit' => exact (isDigit_lowerByte isDigit').1
      refine ⟨.plain (digit'.map lowerByte) hex, ?_, ?_⟩
      · show digit.map lowerByte = (digit'.map lowerByte).map lowerByte
        rw [show digit.map lowerByte = digit'.map lowerByte from alike]
        cases digit' <;> simp
      · rw [none, List.foldl_nil]
        cases digit' <;> rfl
  · cases alike
  · cases alike
  · next marker rest known marker' rest' known' =>
      have same : marker.map lowerByte = marker'.map lowerByte := alike
      have length : (front ++ marker'.map lowerByte).length = front.length + marker.length := by
        rw [List.length_append, ← same, List.length_map]
      obtain ⟨after, written⟩ :=
        foldl_overwrite_behind (length.symm ▸ behind) (rest'.map lowerByte)
      have lowered : (marker'.map lowerByte).map lowerByte = marker.map lowerByte := by
        rw [same, List.map_map]
        exact List.map_congr_left fun byte _ => lowerByte_lowerByte byte
      refine ⟨.metadata (marker'.map lowerByte) after (lowered ▸ known), lowered.symm, ?_⟩
      rw [Ending.text, List.map_append, ← List.append_assoc, written, List.append_assoc]
      rfl

/-- The places of code, and those that are found behind its marker. -/
theorem placeholders_text (long : code.Long) :
    placeholders code.text = placesFrom 0 code.pieces ++
      placeholdersFrom (textOf code.pieces).length code.ending.text := by
  rw [placeholders, stripPrefix_text long, placeholdersFrom_textOf, Nat.zero_add]

/-- What is masked of a text: where the code has places, and at places behind the code. -/
theorem mask_eq (long : code.Long) {text : List UInt8}
    (length : (textOf code.pieces).length ≤ text.length) :
    ∃ starts : List Nat, (∀ start ∈ starts,
        start ∈ placeholdersFrom (textOf code.pieces).length code.ending.text) ∧
      ((placeholders code.text).filter fun start =>
        start + placeholderLength ≤ text.length).foldl overwrite text =
      starts.foldl overwrite (cover code.pieces text) := by
  have inside : ∀ start ∈ placesFrom 0 code.pieces,
      decide (start + placeholderLength ≤ text.length) = true := by
    intro start listed
    have bounds := (placesFrom_bounds listed).2
    rw [decide_eq_true_eq]
    omega
  rw [placeholders_text long, List.filter_append, List.filter_eq_self.mpr inside,
    List.foldl_append]
  exact ⟨_, fun start within => List.mem_of_mem_filter within,
    congrArg (List.foldl overwrite · _) (foldl_overwrite_cover length [])⟩

/-- Every linking is accepted. -/
theorem LinkedAs.matches (regular : code.Regular) (linkedAs : code.LinkedAs linked) :
    matchesUnlinked code.text linked.text = true := by
  have length := linkedAs.length
  obtain ⟨front, plain, zeroed, covered⟩ := linkedAs.cover (linked.ending.text.map lowerByte)
  have size : front.length = (textOf code.pieces).length := by
    rw [← length_zeroGuard, zeroed, length_shown]
  obtain ⟨starts, listed, masked⟩ := mask_eq regular.long (by
    show _ ≤ ((textOf linked.pieces).map lowerByte ++ linked.ending.text.map lowerByte).length
    rw [List.length_append, List.length_map]
    omega)
  rw [covered] at masked
  rw [← size] at listed
  obtain ⟨last, alike, written⟩ := overwritten linkedAs.ending front listed
  simp only [matchesUnlinked]
  rw [stripPrefix_text (linkedAs.long regular.long), List.map_append, masked, written,
    normalize_front regular plain zeroed alike]
  exact beq_self_eq_true _

end CodeText

/-! ### Refusal -/

theorem length_overwrite {text : List UInt8} {start : Nat}
    (inside : start + placeholderLength ≤ text.length) :
    (overwrite text start).length = text.length := by
  simp only [overwrite, List.length_append, List.length_take, List.length_drop, length_zeros]
  omega

theorem getElem?_overwrite {text : List UInt8} {start index : Nat}
    (inside : start + placeholderLength ≤ text.length)
    (outside : index < start ∨ start + placeholderLength ≤ index) :
    (overwrite text start)[index]? = text[index]? := by
  have length : (text.take start ++ zeros placeholderLength).length =
      start + placeholderLength := by
    rw [List.length_append, List.length_take, length_zeros]
    omega
  rw [overwrite]
  rcases outside with before | behind
  · rw [List.append_assoc, List.getElem?_append_left (by rw [List.length_take]; omega),
      List.getElem?_take, if_pos before]
  · rw [List.getElem?_append_right (by omega), length, List.getElem?_drop,
      Nat.add_sub_of_le behind]

/-- Zeros over places leave alone what is outside of them. -/
theorem getElem?_foldl_overwrite {starts : List Nat} {text : List UInt8} {index : Nat}
    (inside : ∀ start ∈ starts, start + placeholderLength ≤ text.length)
    (outside : ∀ start ∈ starts, index < start ∨ start + placeholderLength ≤ index) :
    (starts.foldl overwrite text)[index]? = text[index]? := by
  induction starts generalizing text with
  | nil => rfl
  | cons start starts ih =>
      have first := inside start List.mem_cons_self
      rw [List.foldl_cons, ih, getElem?_overwrite first (outside start List.mem_cons_self)]
      · intro other within
        rw [length_overwrite first]
        exact inside other (List.mem_cons_of_mem _ within)
      · exact fun other within => outside other (List.mem_cons_of_mem _ within)

theorem Plain.foldl_overwrite {text : List UInt8} (plain : Plain text) (starts : List Nat) :
    Plain (starts.foldl overwrite text) := by
  induction starts generalizing text with
  | nil => exact plain
  | cons start starts ih =>
      apply ih
      rw [overwrite, plain_append, plain_append]
      exact ⟨⟨fun byte within => plain byte (List.mem_of_mem_take within), plain_zeros _⟩,
        fun byte within => plain byte (List.mem_of_mem_drop within)⟩

/-- Outside of places the normal form has the code itself. -/
theorem getElem?_shownOf {pieces : List Piece} (position index : Nat)
    (outside : ∀ start ∈ placesFrom position pieces,
      position + index < start ∨ start + placeholderLength ≤ position + index) :
    (shownOf pieces)[index]? = ((textOf pieces).map lowerByte)[index]? := by
  induction pieces generalizing position index with
  | nil => rfl
  | cons piece pieces ih =>
      cases piece with
      | byte high low highDigit lowDigit =>
          show (lowerByte high :: lowerByte low :: shownOf pieces)[index]? =
            (lowerByte high :: lowerByte low :: (textOf pieces).map lowerByte)[index]?
          match index with
          | 0 => rfl
          | 1 => rfl
          | index + 2 =>
              apply ih (position + 2) index
              intro start listed
              have away := outside start listed
              omega
      | place name length =>
          have size := Piece.length_place length
          have size' : ((Piece.place name length).text.map lowerByte).length =
              placeholderLength := by
            rw [List.length_map, size]
          have behind : placeholderLength ≤ index := by
            have first := outside position List.mem_cons_self
            omega
          rw [shownOf, textOf, List.flatMap_cons, List.flatMap_cons, List.map_append, Piece.shown,
            List.getElem?_append_right (by rw [length_zeros]; exact behind),
            List.getElem?_append_right (by rw [size']; exact behind), length_zeros, size']
          apply ih (position + placeholderLength) (index - placeholderLength)
          intro start listed
          have away := outside start (List.mem_cons_of_mem _ listed)
          omega

theorem getElem?_zeroGuard (text : List UInt8) {index : Nat} (outside : index < 2 ∨ 42 ≤ index) :
    (zeroGuard text)[index]? = text[index]? := by
  rcases zeroGuard_cases text with ⟨address, rest, length, rfl, zeroed⟩ | ⟨-, same⟩
  · rw [zeroed]
    rcases outside with before | behind
    · rw [guarded, guarded, List.getElem?_append_left before, List.getElem?_append_left before]
    · rw [← Nat.add_sub_of_le behind, ← List.getElem?_drop, ← List.getElem?_drop,
        drop_guarded length, drop_guarded (length_zeros 40)]
  · rw [same]

/-- A text that goes on as guarded code does is guarded code, if it is long enough. -/
theorem eq_guarded_of_prefix {text address rest : List UInt8} (length : address.length = 40)
    (front : text <+: guarded address rest) (long : 46 ≤ text.length) :
    ∃ rest', text = guarded address rest' := by
  have whole : guarded address [] <+: guarded address rest := by
    rw [← List.nil_append rest, ← guarded_append]
    exact List.prefix_append _ _
  have size : (guarded address []).length = 46 := by
    simp [guarded, length]
  obtain ⟨rest', same⟩ := List.prefix_of_prefix_length_le whole front (by omega)
  exact ⟨rest', by rw [← same, guarded_append, List.nil_append]⟩

/-- Pieces can be taken apart where the normal form goes on with anything but a zero, as no place
reaches further. -/
theorem split_shownOf {pieces : List Piece} {front rest : List UInt8} {next : UInt8}
    (shown : shownOf pieces = front ++ next :: rest) (digit : next ≠ 0x30)
    (even : front.length % 2 = 0) :
    ∃ first behind, pieces = first ++ behind ∧ shownOf first = front ∧
      shownOf behind = next :: rest := by
  induction pieces generalizing front with
  | nil => cases front <;> cases shown
  | cons piece pieces ih =>
      match front with
      | [] => exact ⟨[], piece :: pieces, rfl, rfl, shown⟩
      | [only] => cases even
      | high :: low :: front =>
          cases piece with
          | byte high' low' highDigit lowDigit =>
              obtain ⟨rfl, after⟩ := List.cons.inj shown
              obtain ⟨rfl, others⟩ := List.cons.inj after
              rw [List.length_cons, List.length_cons] at even
              obtain ⟨first, behind, rfl, same, same'⟩ := ih others (by omega)
              exact ⟨.byte high' low' highDigit lowDigit :: first, behind, rfl,
                congrArg (lowerByte high' :: lowerByte low' :: ·) same, same'⟩
          | place name length =>
              rcases List.append_eq_append_iff.mp shown with
                ⟨middle, whole, shown⟩ | ⟨middle, whole, shown⟩
              · have size := congrArg List.length whole
                rw [List.length_append, Piece.shown, length_zeros, placeholderLength] at size
                obtain ⟨first, behind, rfl, same, same'⟩ := ih shown (by omega)
                rw [whole]
                exact ⟨.place name length :: first, behind, rfl,
                  congrArg (zeros placeholderLength ++ ·) same, same'⟩
              · cases middle with
                | nil =>
                    rw [List.append_nil] at whole
                    exact ⟨[.place name length], pieces, rfl, (List.append_nil _).trans whole,
                      shown.symm⟩
                | cons zero middle =>
                    obtain ⟨rfl, -⟩ := List.cons.inj shown
                    have within : next ∈ zeros placeholderLength := by
                      rw [show zeros placeholderLength = _ from whole]
                      simp
                    exact absurd (List.eq_of_mem_replicate within) digit

theorem eq_of_lowerByte {byte digit : UInt8} (same : lowerByte byte = digit)
    (below : digit < 0x41) : byte = digit := by
  unfold lowerByte at same
  grind

/-- A pair of the normal form that does not start with a zero is that of a byte. -/
theorem shownOf_eq_cons {pieces : List Piece} {high low : UInt8} {rest : List UInt8}
    (shown : shownOf pieces = high :: low :: rest) (digit : high ≠ 0x30) (below : high < 0x41)
    (below' : low < 0x41) :
    ∃ highDigit lowDigit others, pieces = .byte high low highDigit lowDigit :: others ∧
      shownOf others = rest := by
  cases pieces with
  | nil => cases shown
  | cons piece pieces =>
      cases piece with
      | byte high' low' highDigit lowDigit =>
          obtain ⟨same, after⟩ := List.cons.inj shown
          obtain ⟨same', others⟩ := List.cons.inj after
          obtain rfl := eq_of_lowerByte same below
          obtain rfl := eq_of_lowerByte same' below'
          exact ⟨highDigit, lowDigit, pieces, rfl, others⟩
      | place name length => exact absurd (List.cons.inj shown).1.symm digit

/-- Code whose normal form starts with a guard starts with one itself. -/
theorem exists_guard {pieces : List Piece} {address rest : List UInt8}
    (length : address.length = 40) (shown : shownOf pieces = guarded address rest) :
    ∃ address body, pieces = piecesOf (some address) body := by
  have even : ([0x37, 0x33] ++ address).length % 2 = 0 := by
    rw [List.length_append, length]
    rfl
  rw [guarded, ← List.append_assoc] at shown
  obtain ⟨first, behind, rfl, start, stop⟩ := split_shownOf shown (by decide) even
  obtain ⟨_, _, inner, rfl, within⟩ :=
    shownOf_eq_cons start (by decide) (by decide) (by decide)
  obtain ⟨_, _, last, rfl, after⟩ := shownOf_eq_cons stop (by decide) (by decide) (by decide)
  obtain ⟨_, _, body, rfl, -⟩ := shownOf_eq_cons after (by decide) (by decide) (by decide)
  have size : (textOf inner).length = 40 := by
    rw [← length_shownOf, within]
    exact length
  exact ⟨⟨inner, size⟩, body, rfl⟩

theorem zeroGuard_shownOf_of_free {pieces : List Piece}
    (free : ¬ ∃ address body, pieces = piecesOf (some address) body) :
    zeroGuard (shownOf pieces) = shownOf pieces := by
  rcases zeroGuard_cases (shownOf pieces) with ⟨address, rest, length, shown, -⟩ | ⟨-, same⟩
  · exact absurd (exists_guard length shown) free
  · exact same

namespace CodeText

variable {code : CodeText}

/-- Code without its metadata. -/
def program (code : CodeText) : List UInt8 :=
  textOf code.pieces ++ code.ending.digits

/-- Whether a position of code is neither in a place nor in the address of a leading guard. -/
structure Fixed (code : CodeText) (index : Nat) : Prop where
  inside : index < code.program.length
  place : ∀ start ∈ placesFrom 0 code.pieces,
    index < start ∨ start + placeholderLength ≤ index
  guard : (∃ address body, code.pieces = piecesOf (some address) body) → index < 2 ∨ 42 ≤ index

/-- At a fixed position the normal form has the code itself. -/
theorem Fixed.shown {index : Nat} (fixed : code.Fixed index) :
    (code.shown ++ code.ending.shown)[index]? = (code.program.map lowerByte)[index]? := by
  have pieces : code.shown[index]? = ((textOf code.pieces).map lowerByte)[index]? := by
    rw [CodeText.shown, ← getElem?_shownOf 0 index (by simpa using fixed.place)]
    by_cases guard : ∃ address body, code.pieces = piecesOf (some address) body
    · exact getElem?_zeroGuard _ (fixed.guard guard)
    · rw [zeroGuard_shownOf_of_free guard]
  have length : code.shown.length = ((textOf code.pieces).map lowerByte).length := by
    rw [length_shown, List.length_map]
  rw [program, List.map_append, Ending.shown_eq, List.getElem?_append, List.getElem?_append, pieces,
    length]

/-- Where the normal form of a text is that of code, the text has the same digits at all fixed
positions. -/
theorem Fixed.eq_of_prefix {index : Nat} (fixed : code.Fixed index)
    (long : 46 ≤ code.program.length) {text : List UInt8}
    (front : code.shown ++ code.ending.shown <+: zeroGuard text) :
    text[index]? = (code.program.map lowerByte)[index]? := by
  have length : (code.shown ++ code.ending.shown).length = code.program.length := by
    rw [program, List.length_append, List.length_append, length_shown, Ending.shown_eq,
      List.length_map]
  have same : (zeroGuard text)[index]? = (code.program.map lowerByte)[index]? := by
    obtain ⟨rest, whole⟩ := front
    rw [← whole, List.getElem?_append_left (length ▸ fixed.inside), fixed.shown]
  rw [← same]
  by_cases away : index < 2 ∨ 42 ≤ index
  · exact (getElem?_zeroGuard text away).symm
  · -- Neither the code nor the text has a guard, as the address of one would not be fixed.
    rcases zeroGuard_cases text with ⟨address, rest, size, -, zeroed⟩ | ⟨-, unchanged⟩
    · exfalso
      apply away
      apply fixed.guard
      rw [zeroed] at front
      have ending := Ending.length_shown code.ending
      have even := even_shownOf code.pieces
      have size' := length_shownOf code.pieces
      rw [List.length_append, length_shown] at length
      obtain ⟨rest', starts⟩ := eq_guarded_of_prefix (length_zeros 40)
        ((List.prefix_append code.shown code.ending.shown).trans front)
        (by rw [length_shown]; omega)
      by_contra free
      rw [CodeText.shown, zeroGuard_shownOf_of_free free] at starts
      exact free (exists_guard (length_zeros 40) starts)
    · rw [unchanged]

/-- Digits that differ from code at a fixed position are refused. -/
theorem Fixed.refuses (regular : code.Regular) {index : Nat} (fixed : code.Fixed index)
    (long : 46 ≤ code.program.length) {lead digits : List UInt8}
    (known : lead ∈ [[], [0x30, 0x78], [0x30, 0x58]]) (hex : digits.all isDigit = true)
    (differs : (digits.map lowerByte)[index]? ≠ (code.program.map lowerByte)[index]?) :
    matchesUnlinked code.text (lead ++ digits) = false := by
  have plain : Plain (digits.map lowerByte) :=
    List.forall_mem_map.mpr fun digit within =>
      plain_lowerByte (List.all_eq_true.mp hex digit within)
  have bare : Bare digits := fun second found =>
    (isDigit_lowerByte (List.all_eq_true.mp hex second (List.mem_of_getElem? found))).2.2
  have starts : ∀ start ∈ placeholders code.text,
      index < start ∨ start + placeholderLength ≤ index := by
    intro start listed
    rw [placeholders_text regular.long] at listed
    rcases List.mem_append.mp listed with place | behind
    · exact fixed.place start place
    · have after := code.ending.le_of_mem_placeholdersFrom behind
      have shorter := code.ending.length_digits_le
      have inside := fixed.inside
      rw [program, List.length_append] at inside
      omega
  simp only [matchesUnlinked, bare.stripPrefix_lead known]
  rw [beq_eq_false_iff_ne]
  intro same
  apply differs
  rw [normalize_text (clear_shown regular.unmarked) regular.long,
    (plain.foldl_overwrite _).normalize] at same
  have front := beforeMarker_prefix (zeroGuard (((placeholders code.text).filter fun start =>
    start + placeholderLength ≤ (digits.map lowerByte).length).foldl overwrite
      (digits.map lowerByte)))
  rw [same] at front
  rw [← fixed.eq_of_prefix long front]
  refine (getElem?_foldl_overwrite ?_ ?_).symm
  · exact fun start within => of_decide_eq_true (List.mem_filter.mp within).2
  · exact fun start within => starts start (List.mem_filter.mp within).1

/-- Linked code is accepted as unlinked code whatever is in its places and in the address of its
guard, in any case, with any prefix and with anything behind the marker of its metadata. Code that
differs from it at any other position is refused. -/
theorem linkings_accepted (regular : code.Regular) :
    (∀ linked : CodeText, code.LinkedAs linked →
      matchesUnlinked code.text linked.text = true) ∧
    (46 ≤ code.program.length → ∀ lead ∈ [[], [0x30, 0x78], [0x30, 0x58]], ∀ digits : List UInt8,
      digits.all isDigit = true → ∀ index, code.Fixed index →
        (digits.map lowerByte)[index]? ≠ (code.program.map lowerByte)[index]? →
          matchesUnlinked code.text (lead ++ digits) = false) :=
  ⟨fun _ linkedAs => linkedAs.matches regular,
    fun long _ known _ hex _ fixed differs => fixed.refuses regular long known hex differs⟩

/-- The sample library with another library at an address, itself at an address that has a marker in
it. -/
def linkedSample : CodeText :=
  { deployed with
    body := deployed.body.take 1 ++ (List.replicate 20 (.byte 0x45 0x64 rfl rfl) ++
      deployed.body.drop 2) }

theorem linkings_accepted_library :
    Bytecode.matchesUnlinked
        (Text.utf8 ("0x730000000000000000000000000000000000000000301460" ++
          "__a264736f6c63__________________________F3a264736f6c63430008__"))
        (Text.utf8 ("73a264736f6c63bCbCbCbCbCbCbCbCbCbCbCbCbCbC301460" ++
          "EdEdEdEdEdEdEdEdEdEdEdEdEdEdEdEdEdEdEdEdf3A264736F6C634a")) = true ∧
      Bytecode.matchesUnlinked
        (Text.utf8 ("0x730000000000000000000000000000000000000000301460" ++
          "__a264736f6c63__________________________F3a264736f6c63430008__"))
        (Text.utf8 ("0X73a264736f6c63bCbCbCbCbCbCbCbCbCbCbCbCbCbC301460" ++
          "EdEdEdEdEdEdEdEdEdEdEdEdEdEdEdEdEdEdEdEdf4A264736F6C634a")) = false := by
  have text : compiled.text = Text.utf8 ("0x730000000000000000000000000000000000000000301460" ++
      "__a264736f6c63__________________________F3a264736f6c63430008__") := by decide +kernel
  have text' : linkedSample.text = Text.utf8 ("73a264736f6c63bCbCbCbCbCbCbCbCbCbCbCbCbCbC301460" ++
      "EdEdEdEdEdEdEdEdEdEdEdEdEdEdEdEdEdEdEdEdf3A264736F6C634a") := by decide +kernel
  have regular : compiled.Regular := ⟨by decide, by decide⟩
  have linkedAs : compiled.LinkedAs linkedSample := by
    refine ⟨rfl, ?_, ?_, ?_⟩
    · rintro address ⟨⟩
      decide
    · have body : textOf linkedSample.body = 0x36 :: 0x30 ::
          (Text.utf8 "EdEdEdEdEdEdEdEdEdEdEdEdEdEdEdEdEdEdEdEd" ++ [0x66, 0x33]) := by
        decide +kernel
      rw [body]
      exact .byte rfl rfl (.place (by decide +kernel) (by decide +kernel)
        (.byte (by decide) rfl .nil))
    · show List.map _ _ = List.map _ _
      decide
  have other : Text.utf8 ("0X73a264736f6c63bCbCbCbCbCbCbCbCbCbCbCbCbCbC301460" ++
      "EdEdEdEdEdEdEdEdEdEdEdEdEdEdEdEdEdEdEdEdf4A264736F6C634a") = [0x30, 0x58] ++
      Text.utf8 ("73a264736f6c63bCbCbCbCbCbCbCbCbCbCbCbCbCbC301460" ++
        "EdEdEdEdEdEdEdEdEdEdEdEdEdEdEdEdEdEdEdEdf4A264736F6C634a") := by decide +kernel
  have fixed : compiled.Fixed 89 := ⟨by decide, by decide, fun _ => .inr (by decide)⟩
  rw [← text, ← text', other]
  exact ⟨(linkings_accepted regular).1 linkedSample linkedAs,
    (linkings_accepted regular).2 (by decide) _ (by decide) _ (by decide +kernel) 89 fixed
      (by decide +kernel)⟩

end CodeText

end SolTrace.Bytecode
