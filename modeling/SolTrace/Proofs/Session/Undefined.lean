import SolTrace.Proofs.Session.Caching
/-!
What it means that a variable is shown as undefined: it cannot be decoded, or it is in calldata, of
which nothing is decoded.
-/
set_option autoImplicit false

namespace SolTrace

/-- Whether a decoder never succeeds with the undefined value. -/
def Decoder.Defined (decoder : Decoder Value) : Prop :=
  ∀ state : State, (decoder.run.run state).1 ≠ .ok .undefined

namespace Decoder.Defined

variable {α : Type}

theorem pure {value : Value} (defined : value ≠ .undefined) :
    Decoder.Defined (Pure.pure value) :=
  fun _ same => defined (Except.ok.inj same)

theorem lift {result : Except Error Value} (defined : result ≠ .ok .undefined) :
    Decoder.Defined (Decoder.lift result) :=
  fun _ => defined

theorem throw (error : Error) : Decoder.Defined (MonadExcept.throw error) :=
  fun _ same => nomatch same

theorem bind (decoder : Decoder α) {next : α → Decoder Value}
    (rest : ∀ value, Decoder.Defined (next value)) : Decoder.Defined (decoder >>= next) := by
  intro state
  rw [run_bind]
  cases decoder.run.run state with
  | mk result after =>
      cases result with
      | ok value => exact rest value after
      | error error => exact fun same => nomatch same

end Decoder.Defined

namespace Decode

/-! ### Decoded values -/

theorem bind_defined {α : Type} (first : Except Error α) {next : α → Except Error Value}
    (rest : ∀ value, next value ≠ .ok .undefined) : (first >>= next) ≠ .ok .undefined := by
  cases first with
  | ok value => exact rest value
  | error error => exact fun same => nomatch same

theorem ofElementary_defined (type : Ty) (bytes : List UInt8) (elementary : Elementary) :
    ofElementary type bytes elementary ≠ .ok .undefined := by
  cases elementary <;> exact fun same => nomatch same

theorem ofBytes_defined (type : Ty) (bytes : List UInt8) :
    ofBytes type bytes ≠ .ok .undefined := by
  unfold ofBytes
  split
  · rename_i values
    cases values[ofBigEndian bytes]? <;> exact fun same => nomatch same
  · split
    · exact ofElementary_defined _ _ _
    · exact fun same => nomatch same

theorem ofWord_defined (type : Ty) (word : Word) : ofWord type word ≠ .ok .undefined :=
  ofBytes_defined _ _

theorem ofMemoryBytes_defined (type : Ty) (memory : List UInt8) (start : Nat) :
    ofMemoryBytes type memory start ≠ .ok .undefined := by
  unfold ofMemoryBytes
  split
  · exact bind_defined _ fun _ same => nomatch same
  · exact bind_defined _ fun _ same => nomatch same
  · exact ofWord_defined _ _

theorem ofMemory_defined (memory : List UInt8) (type : Ty) (start : Nat) :
    ofMemory memory type start ≠ .ok .undefined := by
  unfold ofMemory
  split
  · exact fun same => nomatch same
  · cases type with
    | elementary name => exact ofMemoryBytes_defined _ _ _
    | enum name values => exact ofMemoryBytes_defined _ _ _
    | mapping key value => exact fun same => nomatch same
    | struct name members => exact bind_defined _ fun _ same => nomatch same
    | array base length =>
        refine bind_defined _ fun (count, first) => ?_
        by_cases past : memory.length < count * 32
        · simp only [if_pos past]
          exact fun same => nomatch same
        · simp only [if_neg past]
          exact bind_defined _ fun _ same => nomatch same

open Decoder (Defined)

theorem ofSlot_defined (provider : Provider) (type : Ty) (slot : Word) (offset : Nat) :
    Defined (ofSlot provider type slot offset) := by
  unfold ofSlot
  split
  · exact Defined.bind _ fun _ => Defined.pure nofun
  · exact Defined.bind _ fun _ => Defined.pure nofun
  · split
    · exact Defined.throw _
    · exact Defined.bind _ fun _ => Defined.lift (ofBytes_defined _ _)

theorem ofStorage_defined (provider : Provider) (type : Ty) (slot : Word) (offset : Nat) :
    Defined (ofStorage provider type slot offset) := by
  cases type with
  | elementary name =>
      simp only [ofStorage]
      exact ofSlot_defined provider _ slot offset
  | enum name values =>
      simp only [ofStorage]
      exact ofSlot_defined provider _ slot offset
  | mapping key value =>
      simp only [ofStorage]
      exact Defined.pure (by simp)
  | struct name members =>
      simp only [ofStorage]
      exact Defined.bind _ fun _ => Defined.pure (by simp)
  | array base length =>
      simp only [ofStorage]
      exact Defined.bind _ fun _ => Defined.bind _ fun _ => Defined.pure (by simp)

end Decode

/-! ### Variables -/

namespace State

theorem decode_defined (provider : Provider) (assignment : Assignment)
    (elsewhere : ∀ position, assignment.location = .stack position →
      assignment.var.location ≠ .calldata) :
    Decoder.Defined (decode provider assignment) := by
  obtain ⟨var, location⟩ := assignment
  cases location with
  | constant value => exact Decoder.Defined.pure nofun
  | storage slot offset => exact Decode.ofStorage_defined provider var.type slot offset
  | memory position =>
      exact Decoder.Defined.bind get fun _ => Decoder.Defined.lift <|
        Decode.bind_defined _ fun _ => Decode.bind_defined _ fun _ =>
          Decode.ofMemory_defined _ _ _
  | stack position =>
      refine Decoder.Defined.bind get fun state => Decoder.Defined.bind _ fun word => ?_
      split
      · rename_i place
        exact absurd place (elsewhere position rfl)
      · split
        · exact Decode.ofStorage_defined provider var.type word 0
        · exact Decoder.Defined.lift (Decode.ofWord_defined _ _)
      · exact Decoder.Defined.lift (Decode.ofWord_defined _ _)

/-- Of calldata only the word on the stack is looked at. -/
theorem decode_calldata (provider : Provider) (var : Variable) (position : Nat)
    (inside : var.location = .calldata) (state : State) :
    ((decode provider ⟨var, .stack position⟩).run.run state).1 =
      (state.stackWord position).map fun _ => .undefined := by
  simp only [decode, inside]
  rw [Decoder.run_get_bind, Decoder.run_bind]
  cases state.stackWord position <;> rfl

end State

namespace Step

variable (provider : Provider) (block : Nat) (nocache : Bool)

/-- Whether a variable is in calldata, with a word for it on the stack. -/
def PointsToCalldata (step : Step) (assignment : Assignment) : Prop :=
  assignment.var.location = .calldata ∧
    ∃ position, assignment.location = .stack position ∧ position < step.snapshot.stack.length

/-- Decoding succeeds with the undefined value for variables in calldata alone. -/
theorem value_undefined (step : Step) (assignment : Assignment) :
    step.value provider block nocache assignment = .ok .undefined ↔
      step.PointsToCalldata assignment := by
  unfold value
  constructor
  · intro undefined
    have inside : ∃ position, assignment.location = .stack position ∧
        assignment.var.location = .calldata := by
      by_contra elsewhere
      refine State.decode_defined _ assignment ?_ _ undefined
      exact fun position place inside => elsewhere ⟨position, place, inside⟩
    obtain ⟨var, location⟩ := assignment
    obtain ⟨position, rfl, inside⟩ := inside
    rw [State.decode_calldata _ var position inside] at undefined
    refine ⟨inside, position, rfl, ?_⟩
    by_contra past
    have missing : step.snapshot.stack[position]? = none :=
      List.getElem?_eq_none (Nat.le_of_not_lt past)
    simp [State.stackWord, uncached, missing, Except.map] at undefined
  · obtain ⟨var, location⟩ := assignment
    rintro ⟨inside, position, rfl, within⟩
    rw [State.decode_calldata _ var position inside]
    simp [State.stackWord, uncached, within, Except.map]

/-- A variable is shown as undefined if decoding it fails, and if it is in calldata, of which
nothing is decoded. -/
theorem entry_undefined (step : Step) (assignment : Assignment) :
    (step.entry provider block nocache assignment).2 = .undefined ↔
      (∃ error, step.value provider block nocache assignment = .error error) ∨
        step.PointsToCalldata assignment := by
  rw [← step.value_undefined provider block nocache assignment]
  unfold entry
  cases step.value provider block nocache assignment <;> simp [Except.toOption]

end Step
end SolTrace
