import Mathlib.Data.List.Forall2
import Mathlib.Data.List.Infix
import SolTrace.Proofs.Trace.Events
/-!
Lifetimes of bindings: what is bound in a scope is what was bound first while the same activations
had the scope in their definitions. What was bound during other activations is set aside when a
function is entered, and comes back when it is left.
-/
set_option autoImplicit false

namespace SolTrace

open Reduction

/-! ### Frames and activations -/

/-- The bindings that a function has set aside. -/
def Frame.saved (frame : Frame) : Scopes :=
  Scopes.restore ∅ frame.shadowed

theorem Frame.saved_binding? {frame : Frame} {known : Scopes}
    (aside : frame.shadowed = known.pick frame.nodes) {scope : NodeId}
    (inside : scope ∈ frame.nodes) (var : NodeId) :
    frame.saved.binding? scope var = known.binding? scope var := by
  simp only [saved, aside, Scopes.binding?, Scopes.bindings]
  rw [Scopes.getElem?_restore_pick, if_pos inside, Std.ExtTreeMap.getElem?_empty, Option.or_none]

/-- Whether a frame is that of an activation, and has set aside what was bound in its nodes. -/
structure Invocation.Holds (invocation : Invocation) (frame : Frame) : Prop where
  call : frame.call = invocation.call
  context : frame.context = invocation.record.context
  nodes : frame.nodes = invocation.nodes
  aside : ∃ known : Scopes, frame.shadowed = known.pick frame.nodes

/-- Whether a variable is a state variable that the entry of some function has bound. -/
def BoundGlobal (past : List Event) (scope var : NodeId) (assignment : Assignment) : Prop :=
  ∃ record, .takes record .functionIn ∈ past ∧
    record.contract.globalAt? scope var = some assignment

/-- Whether the binding of a variable is the first one under some activations, unless it is that of
a state variable. -/
def Kept (past : List Event) (scope var : NodeId) (home : List Nat) (now : Option Assignment) :
    Prop :=
  now = firstBound? scope var home past ∨
    ∃ global, now = some global ∧ BoundGlobal past scope var global

/-- The bindings of a variable in a scope: the present one, then those that the active functions
have set aside, innermost first. -/
def layers (state : Reduction) (scope var : NodeId) : List (Option Assignment) :=
  state.scopes.binding? scope var ::
    (state.frames.filter fun frame => frame.nodes.contains scope).map fun frame =>
      frame.saved.binding? scope var

/-- Whether the frames are those of the given activations, and every binding is the first one under
the activations that it belongs to. -/
structure Layered (past : List Event) (stack : List Invocation) (state : Reduction) : Prop where
  frames : List.Forall₂ Invocation.Holds stack state.frames
  bindings : ∀ scope var,
    List.Forall₂ (Kept past scope var) (owners scope stack).tails (layers state scope var)

/-! ### Kept bindings -/

theorem BoundGlobal.later {past : List Event} {scope var : NodeId} {assignment : Assignment}
    (bound : BoundGlobal past scope var assignment) (event : Event) :
    BoundGlobal (event :: past) scope var assignment := by
  obtain ⟨record, member, found⟩ := bound
  exact ⟨record, List.mem_cons_of_mem _ member, found⟩

theorem Kept.later {past : List Event} {scope var : NodeId} {home : List Nat}
    {now : Option Assignment} (kept : Kept past scope var home now) {event : Event}
    (other : owners scope (active (event :: past)) ≠ home ∨ event.binds? scope var = none) :
    Kept (event :: past) scope var home now := by
  rcases kept with first | ⟨global, same, bound⟩
  · exact .inl (first.trans (firstBound?_cons other).symm)
  · exact .inr ⟨global, same, bound.later event⟩

/-- What was bound under fewer activations is not touched by an event. -/
theorem forall₂_later {past : List Event} {scope var : NodeId} {event : Event}
    {home : List Nat} (longer : home.length < (owners scope (active (event :: past))).length)
    {values : List (Option Assignment)}
    (kept : List.Forall₂ (Kept past scope var) home.tails values) :
    List.Forall₂ (Kept (event :: past) scope var) home.tails values := by
  induction home generalizing values with
  | nil =>
      cases kept with
      | cons first rest =>
          cases rest
          exact .cons (first.later (.inl fun same => by simp [same] at longer)) .nil
  | cons number home ih =>
      rw [List.tails_cons] at kept ⊢
      cases kept with
      | cons first rest =>
          have shorter : home.length < (number :: home).length := Nat.lt_succ_self _
          exact .cons (first.later (.inl fun same => by simp [same] at longer))
            (ih (Nat.lt_trans shorter longer) rest)

/-- An event may replace the binding under some activations, if at least as many are active. -/
theorem forall₂_tails {past : List Event} {scope var : NodeId} {home : List Nat}
    {now : Option Assignment} {values : List (Option Assignment)}
    (kept : List.Forall₂ (Kept past scope var) home.tails (now :: values)) :
    Kept past scope var home now ∧
      ∀ {after : Option Assignment} {event : Event},
        home.length ≤ (owners scope (active (event :: past))).length →
          Kept (event :: past) scope var home after →
          List.Forall₂ (Kept (event :: past) scope var) home.tails (after :: values) := by
  cases home with
  | nil =>
      cases kept with
      | cons first rest => exact ⟨first, fun _ top => .cons top (by cases rest; exact .nil)⟩
  | cons number home =>
      rw [List.tails_cons] at kept ⊢
      cases kept with
      | cons first rest => exact ⟨first, fun longer top => .cons top (forall₂_later longer rest)⟩

namespace Layered

variable {past : List Event} {stack : List Invocation} {state after : Reduction}

theorem start (inputs : TraceInputs) (alignment : Alignment) :
    Layered [] [] (Reduction.start inputs alignment) where
  frames := .nil
  bindings _ _ := .cons (.inl (Scopes.binding?_empty _ _)) .nil

theorem congr (layered : Layered past stack state) (frames : after.frames = state.frames)
    (scopes : after.scopes = state.scopes) : Layered past stack after where
  frames := frames ▸ layered.frames
  bindings scope var := by
    have same : layers after scope var = layers state scope var := by
      rw [layers, layers, frames, scopes]
    exact same ▸ layered.bindings scope var

theorem binding (layered : Layered past stack state) (scope var : NodeId) :
    Kept past scope var (owners scope stack) (state.scopes.binding? scope var) :=
  (forall₂_tails (layered.bindings scope var)).1

theorem calls (layered : Layered past stack state) :
    callsOf state.frames = (stack.map Invocation.call).reverse := by
  have held := layered.frames
  clear layered
  generalize state.frames = frames at held
  induction held with
  | nil => rfl
  | cons first _ ih => rw [callsOf_cons, ih, first.call, List.map_cons, List.reverse_cons]

/-- Leaving a function brings back the bindings under the activations that are left. -/
theorem leave {invocation : Invocation} (layered : Layered past (invocation :: stack) state) :
    Layered past stack state.leaveFunction := by
  obtain ⟨held, bindings⟩ := layered
  cases active : state.frames with
  | nil =>
      rw [active] at held
      cases held
  | cons frame frames =>
      rw [active] at held
      cases held with
      | cons first rest =>
          obtain ⟨known, aside⟩ := first.aside
          refine ⟨by rwa [leaveFunction_frames, active, List.tail_cons], fun scope var => ?_⟩
          have kept := bindings scope var
          simp only [layers, leaveFunction_frames, active, List.tail_cons] at kept ⊢
          rw [leaveFunction_binding? active aside]
          by_cases inside : scope ∈ frame.nodes
          · rw [owners_inside (first.nodes ▸ inside), List.tails_cons,
              List.filter_cons_of_pos (by simpa using inside), List.map_cons,
              Frame.saved_binding? aside inside] at kept
            rw [if_pos inside]
            exact (List.forall₂_cons.mp kept).2
          · rw [owners_outside (first.nodes ▸ inside),
              List.filter_cons_of_neg (by simpa using inside)] at kept
            rwa [if_neg inside]

/-- Leaving functions one after the other, as long as a condition on their activations holds. -/
theorem leaveWhile {condition : Frame → Bool} {leaves : Invocation → Bool}
    {before : Reduction → Reduction}
    (same : ∀ invocation frame, invocation.Holds frame → condition frame = leaves invocation)
    (frames : ∀ state, (before state).frames = state.frames)
    (scopes : ∀ state, (before state).scopes = state.scopes)
    (layered : Layered past stack state) :
    Layered past (stack.dropWhile leaves)
      (Reduction.leaveWhile condition before state.frames state) := by
  induction stack generalizing state with
  | nil =>
      have none : state.frames = [] := by
        have held := layered.frames
        generalize state.frames = frames at held
        cases held
        rfl
      rw [none]
      exact layered
  | cons invocation stack ih =>
      cases active : state.frames with
      | nil =>
          have held := layered.frames
          rw [active] at held
          cases held
      | cons frame rest =>
          have held := layered.frames
          rw [active] at held
          cases held with
          | cons first _ =>
              rw [Reduction.leaveWhile, same invocation frame first]
              by_cases leaving : leaves invocation = true
              · have left := (layered.congr (frames state) (scopes state)).leave
                have remaining : (before state).leaveFunction.frames = rest := by
                  rw [leaveFunction_frames, frames, active, List.tail_cons]
                rw [List.dropWhile_cons_of_pos leaving, if_pos leaving, ← remaining]
                exact ih left
              · rw [List.dropWhile_cons_of_neg leaving, if_neg leaving]
                exact layered

/-- An event that binds no variable. -/
theorem later (layered : Layered past stack state) (event : Event)
    (quiet : ∀ scope var, event.binds? scope var = none) : Layered (event :: past) stack state where
  frames := layered.frames
  bindings scope var :=
    (layered.bindings scope var).imp fun _ _ kept => kept.later (.inr (quiet scope var))

/-- A declaration binds its variable under the activations on the stack. -/
theorem declares {record : Record} (layered : Layered past (active past) state)
    (registered : state.registerLocal record = .ok after) :
    Layered (.declares record :: past) (active past) after := by
  have frames := registerLocal_frames registered
  refine ⟨frames ▸ layered.frames, fun scope var => ?_⟩
  obtain ⟨here, rest⟩ := forall₂_tails (layered.bindings scope var)
  rw [layers, frames]
  refine rest (Nat.le_refl _) ?_
  rw [registerLocal_binding? registered]
  rcases here with first | ⟨global, same, bound⟩
  · left
    rw [first, firstBound?, active, if_pos rfl]
  · right
    rw [same]
    exact ⟨global, rfl, bound.later _⟩

/-- The entry of a function sets aside what is bound in its definition, and binds its parameters
there under its own activation. -/
theorem enter {record : Record} {function : Node} {live : List Invocation}
    (known : record.function? = some function)
    (stack : active (.takes record .functionIn :: past) = ⟨past.length, record, function⟩ :: live)
    (layered : Layered past live state)
    (entered : state.enterFunction record function = .ok after) :
    Layered (.takes record .functionIn :: past) (⟨past.length, record, function⟩ :: live)
      after := by
  obtain ⟨frame, made, call, context, nodes, aside, _⟩ := enterFunction_cases entered
  have frames : after.frames = frame :: state.frames := by rw [made]
  have held : Invocation.Holds ⟨past.length, record, function⟩ frame :=
    ⟨call, context, nodes, _, aside⟩
  refine ⟨frames ▸ .cons held layered.frames, fun scope var => ?_⟩
  have kept := layered.bindings scope var
  have here := layered.binding scope var
  -- before the entry the state variables of the contract may have replaced the binding
  have global : Kept (.takes record .functionIn :: past) scope var (owners scope live)
      (state.scopes.binding? scope var) →
      Kept (.takes record .functionIn :: past) scope var (owners scope live)
        ((state.bindGlobals record).scopes.binding? scope var) := by
    intro before
    rcases bindGlobals_cases state record scope var with same | ⟨global, bound, found⟩
    · rwa [same]
    · exact .inr ⟨global, found, record, List.mem_cons_self, bound⟩
  simp only [layers, frames] at kept ⊢
  rw [enterFunction_binding? known entered]
  by_cases inside : scope ∈ functionNodes record function
  · have home : owners scope (active (.takes record .functionIn :: past)) =
        past.length :: owners scope live := by rw [stack, owners_inside inside]
    have others : owners scope (active (.takes record .functionIn :: past)) ≠ owners scope live :=
      fun same => by simpa [home] using congrArg List.length same
    rw [if_pos inside, owners_inside inside, List.tails_cons,
      List.filter_cons_of_pos (by simpa [nodes] using inside), List.map_cons,
      Frame.saved_binding? aside (nodes ▸ inside)]
    refine .cons (.inl ?_)
      ((forall₂_tails kept).2 (by simp [home]) (global (here.later (.inl others))))
    rw [firstBound?, firstBound?_fresh (Nat.le_refl _), Option.none_or, if_pos home]
  · have quiet := binds?_outside known inside var
    have home : owners scope (active (.takes record .functionIn :: past)) = owners scope live := by
      rw [stack, owners_outside inside]
    rw [if_neg inside, owners_outside inside,
      List.filter_cons_of_neg (by simpa [nodes] using inside)]
    exact (forall₂_tails kept).2 (Nat.le_of_eq (congrArg List.length home.symm))
      (global (here.later (.inr quiet)))

/-- A step drops the functions whose context has been left. -/
theorem drop (layered : Layered past stack state) (record : Record) (index : Nat) :
    Layered past (stack.dropWhile (Invocation.unwound record))
      ((state.mergeThrough index).dropUnwound record) := by
  refine (layered.congr (mergeThrough_frames state index) rfl).leaveWhile ?_ (fun _ => rfl)
    fun _ => rfl
  intro invocation frame held
  rw [Invocation.unwound, held.context]

/-- After each event the frames are those of the activations, with their bindings. -/
theorem perform {event : Event} (layered : Layered past (active past) state)
    (performed : event.perform state = .ok after) :
    Layered (event :: past) (active (event :: past)) after := by
  cases event with
  | declares record => exact layered.declares performed
  | takes record kind =>
      have ready := layered.drop record record.index
      rcases takeStep_cases performed with ⟨plain, rfl⟩ | ⟨rfl, unknown, rfl⟩ |
        ⟨rfl, function, inner, known, entered, rfl⟩ | ⟨rfl, returns, rfl⟩ | ⟨rfl, jumps, left⟩
      · have other : kind ≠ .functionIn := by rintro rfl; simp at plain
        have shown : Layered past _ (((state.mergeThrough record.index).dropUnwound record).emit
            record kind) := ready.congr rfl rfl
        rcases plain with rfl | rfl
        · exact shown.later (.takes record .jump) (binds?_quiet record other)
        · exact shown.later (.takes record .line) (binds?_quiet record other)
      · rw [active, unknown]
        exact ready.later _ fun scope var => by
          simp only [Event.binds?, unknown, Option.bind_none]
      · have stack : active (.takes record .functionIn :: past) =
            ⟨past.length, record, function⟩ ::
              (active past).dropWhile (Invocation.unwound record) := by
          rw [active, known]
        rw [stack]
        exact (ready.enter known stack entered).congr rfl rfl
      · rw [active, if_pos returns]
        refine Layered.later ?_ _ (binds?_quiet record (by decide))
        refine ready.leaveWhile ?_ (fun _ => rfl) fun _ => rfl
        intro invocation frame held
        rw [held.context]
      · obtain ⟨frame, frames, nonempty, _, rfl⟩ := exitFunction_cases left
        rw [active, if_neg jumps]
        cases stack : (active past).dropWhile (Invocation.unwound record) with
        | nil =>
            have held := ready.frames
            rw [stack, List.forall₂_nil_left_iff, nonempty] at held
            cases held
        | cons invocation rest =>
            rw [stack] at ready
            have shown : Layered past (invocation :: rest)
                (((state.mergeThrough record.index).dropUnwound record).emit record .functionOut) :=
              ready.congr rfl rfl
            exact shown.leave.later _ (binds?_quiet record (by decide))

end Layered

/-- Through all events the bindings are the first ones under the activations that they belong to. -/
theorem foldrM_layered {inputs : TraceInputs} {alignment : Alignment} (past : List Event) :
    ∀ {state : Reduction},
      past.foldrM Event.perform (Reduction.start inputs alignment) = .ok state →
        Layered past (active past) state := by
  induction past with
  | nil =>
      intro state performed
      cases performed
      exact Layered.start inputs alignment
  | cons event past ih =>
      intro state performed
      rw [List.foldrM_cons] at performed
      obtain ⟨before, earlier, last⟩ := bind_eq_ok.mp performed
      exact (ih earlier).perform last

/-! ### Steps -/

namespace Reduction

theorem leaveWhile_emits (condition : Frame → Bool) (record : Record) (frames : List Frame) :
    ∀ state : Reduction, ∀ step ∈
      (leaveWhile condition (fun state => state.emit record .functionOut) frames state).steps,
        step ∈ state.steps ∨
          step.index = record.index ∧ step.kind = .functionOut ∧ step.assignments = [] := by
  induction frames with
  | nil => exact fun state step member => .inl member
  | cons frame frames ih =>
      intro state step member
      rw [leaveWhile] at member
      split at member
      · rcases ih _ step member with before | later
        · rw [leaveFunction_steps, emit, Array.mem_push] at before
          rcases before with before | rfl
          · exact .inl before
          · exact .inr ⟨rfl, rfl, rfl⟩
        · exact .inr later
      · exact .inl member

/-- The steps of an event show the state after it, and exits show no variables. -/
theorem perform_steps {state after : Reduction} {event : Event}
    (performed : event.perform state = .ok after) :
    ∀ step ∈ after.steps, step ∈ state.steps ∨ ∃ record, event = .takes record step.kind ∧
      step.index = record.index ∧
      (step.kind = .functionOut ∧ step.assignments = [] ∨
        step = after.stepAt record step.kind) := by
  intro step member
  cases event with
  | declares record => exact .inl (registerLocal_steps performed ▸ member)
  | takes record kind =>
      have dropped := ready_steps state record
      have emitted {middle : Reduction} (steps : middle.steps = state.steps)
          (listed : step ∈ (middle.emit record kind).steps) :
          step ∈ state.steps ∨ step = middle.stepAt record kind := by
        rwa [emit, Array.mem_push, steps] at listed
      rcases takeStep_cases performed with ⟨-, rfl⟩ | ⟨rfl, -, rfl⟩ |
        ⟨rfl, function, inner, -, entered, rfl⟩ | ⟨rfl, -, rfl⟩ | ⟨rfl, -, left⟩
      · refine (emitted dropped member).imp_right ?_
        rintro rfl
        exact ⟨record, rfl, rfl, .inr rfl⟩
      · exact .inl (dropped ▸ member)
      · refine (emitted ((enterFunction_steps entered).trans dropped) member).imp_right ?_
        rintro rfl
        exact ⟨record, rfl, rfl, .inr rfl⟩
      · rcases leaveWhile_emits _ record _ _ step member with before | ⟨index, kind, none⟩
        · exact .inl (dropped ▸ before)
        · exact .inr ⟨record, by rw [kind], index, .inl ⟨kind, none⟩⟩
      · obtain ⟨frame, frames, _, _, rfl⟩ := exitFunction_cases left
        rw [leaveFunction_steps] at member
        refine (emitted dropped member).imp_right ?_
        rintro rfl
        exact ⟨record, rfl, rfl, .inl ⟨rfl, rfl⟩⟩

end Reduction

/-- Every step shows the state after one of the events. -/
theorem foldrM_steps (past : List Event) :
    ∀ {state last : Reduction}, past.foldrM Event.perform state = .ok last →
      ∀ step ∈ last.steps, step ∈ state.steps ∨ ∃ later record before shown,
        past = later ++ .takes record step.kind :: before ∧
        (Event.takes record step.kind :: before).foldrM Event.perform state = .ok shown ∧
        step.index = record.index ∧
        (step.kind = .functionOut ∧ step.assignments = [] ∨
          step = shown.stepAt record step.kind) := by
  induction past with
  | nil =>
      intro state last performed step member
      cases performed
      exact .inl member
  | cons event past ih =>
      intro state last performed step member
      have whole := performed
      rw [List.foldrM_cons] at performed
      obtain ⟨before, earlier, here⟩ := bind_eq_ok.mp performed
      rcases Reduction.perform_steps here step member with old | ⟨record, rfl, index, shows⟩
      · rcases ih earlier step old with start | ⟨later, record, front, shown, rfl, rest⟩
        · exact .inl start
        · exact .inr ⟨event :: later, record, front, shown, rfl, rest⟩
      · exact .inr ⟨[], record, past, last, rfl, whole, index, shows⟩

end SolTrace
