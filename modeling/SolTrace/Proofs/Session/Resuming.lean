import Mathlib.Data.List.Intervals
import SolTrace.Proofs.Session.Navigation
/-!
Going on to a breakpoint. The loop always ends, at the first marked step ahead or, if none is
marked, at the last one. What it answers depends on where that step is: at the last step ahead the
end is reported whether or not the step is marked.
-/
set_option autoImplicit false

namespace SolTrace

namespace Session

/-! ### The steps ahead -/

/-- Whether a step lies beyond the applied one in the current direction. As long as none is applied,
the step at the cursor lies ahead as well. -/
def isAhead (session : Session) (index : Nat) : Bool :=
  match session.applied, session.direction with
  | none, .forward => session.cursor ≤ index
  | none, .backward => index ≤ session.cursor
  | some applied, .forward => applied < index
  | some applied, .backward => index < applied

/-- The steps ahead, the next one first. -/
def ahead (session : Session) : List Nat :=
  let indexes := (List.range session.steps.size).filter session.isAhead
  match session.direction with
  | .forward => indexes
  | .backward => indexes.reverse

/-- Whether a step starts on one of the lines of its file that have a breakpoint. -/
def Marked (session : Session) (index : Nat) : Prop :=
  ∃ step line lines, session.steps[index]? = some step ∧ step.line? = some line ∧
    session.breakpoints[step.file]? = some lines ∧ line ∈ lines

/-- Going on from a session, with what is answered and where it leads. There is no bound on the
number of steps. -/
inductive Continues : Session → Bool → Session → Prop
  | ended {session : Session} (ends : session.step.1 = true) :
      Continues session true session.step.2
  | stopped {session : Session} (goes : session.step.1 = false)
      (marked : session.step.2.current?.any session.step.2.isBreakpoint = true) :
      Continues session false session.step.2
  | goesOn {session after : Session} {answer : Bool} (goes : session.step.1 = false)
      (unmarked : session.step.2.current?.any session.step.2.isBreakpoint = false)
      (rest : Continues session.step.2 answer after) : Continues session answer after

section

variable {steps : Array Step} {session : Session}

theorem isBreakpoint_iff (step : Step) :
    session.isBreakpoint step = true ↔ ∃ line lines, step.line? = some line ∧
      session.breakpoints[step.file]? = some lines ∧ line ∈ lines := by
  unfold isBreakpoint
  cases step.line? <;> cases session.breakpoints[step.file]? <;> simp

/-- The loop looks at the step that has just been applied. -/
theorem current_isBreakpoint_iff {index : Nat} (applied : session.applied = some index) :
    session.current?.any session.isBreakpoint = true ↔ session.Marked index := by
  rw [current?, applied, Option.bind_some, Marked]
  cases session.steps[index]? with
  | none => simp
  | some step => simp [isBreakpoint_iff]

/-- A step changes neither the steps nor the breakpoints. -/
@[simp] theorem step_marked (session : Session) (index : Nat) :
    session.step.2.Marked index ↔ session.Marked index := by
  rw [Marked, Marked, step_steps, step_breakpoints]

/-- Forwards the steps ahead are those from the cursor on. -/
theorem Placed.ahead_forward (placed : Placed steps session)
    (forward : session.direction = .forward) :
    session.ahead = List.Ico session.cursor steps.size := by
  have same : ∀ index, session.isAhead index = decide (session.cursor ≤ index) := by
    intro index
    unfold isAhead
    cases applied : session.applied with
    | none => rw [forward]
    | some last =>
        rw [placed.cursor last applied, forward]
        rfl
  rw [ahead, forward, placed.whole, ← List.Ico.zero_bot, funext same, List.Ico.filter_le,
    Nat.zero_max]

/-- How many steps lie before the applied one. As long as none is applied, the first step is still
to come. -/
def behind (session : Session) : Nat :=
  session.applied.elim (min 1 session.steps.size) id

theorem Placed.behind_le (placed : Placed steps session) : session.behind ≤ steps.size := by
  rw [behind]
  cases applied : session.applied with
  | none =>
      rw [placed.whole]
      exact Nat.min_le_right 1 steps.size
  | some last => exact Nat.le_of_lt (placed.inside last applied)

theorem Placed.cursor_behind (placed : Placed steps session)
    (backward : session.direction = .backward) : session.cursor = session.behind - 1 := by
  rw [behind]
  cases applied : session.applied with
  | none =>
      rw [placed.fresh applied, Option.elim_none]
      omega
  | some last =>
      rw [placed.cursor last applied, backward]
      rfl

/-- Backwards the steps ahead are those before the applied one, or the first one to begin with. -/
theorem Placed.ahead_backward (placed : Placed steps session)
    (backward : session.direction = .backward) :
    session.ahead = (List.range session.behind).reverse := by
  have filtered (limit : Nat) (same : ∀ index, session.isAhead index = decide (index < limit)) :
      session.ahead = (List.range (min session.steps.size limit)).reverse := by
    rw [ahead, backward, ← List.Ico.zero_bot, funext same, List.Ico.filter_lt, List.Ico.zero_bot]
  have few := placed.behind_le
  rw [behind] at few ⊢
  cases applied : session.applied with
  | none =>
      rw [filtered 1, Nat.min_comm, Option.elim_none]
      intro index
      rw [isAhead, applied, backward, placed.fresh applied]
      simp
  | some last =>
      rw [applied, Option.elim_some, id, ← placed.whole] at few
      rw [filtered last, Nat.min_eq_right few, Option.elim_some, id]
      intro index
      rw [isAhead, applied, backward]

/-- With nothing ahead a step reports the end and leaves the applied step as it is. -/
theorem Placed.step_nothing (placed : Placed steps session) (nothing : session.ahead = []) :
    session.step.1 = true ∧ session.step.2.applied = session.applied := by
  cases direction : session.direction with
  | forward =>
      rw [placed.ahead_forward direction, List.Ico.eq_empty_iff, ← placed.whole] at nothing
      rw [step_past nothing]
      exact ⟨rfl, rfl⟩
  | backward =>
      rw [placed.ahead_backward direction, List.reverse_eq_nil_iff, List.range_eq_nil,
        behind] at nothing
      cases applied : session.applied with
      | none =>
          have none : session.steps.size ≤ session.cursor := by
            rw [applied, Option.elim_none] at nothing
            omega
          rw [step_past none]
          exact ⟨rfl, applied⟩
      | some last =>
          -- The first step is applied again.
          obtain rfl : last = 0 := by rwa [applied] at nothing
          obtain ⟨applies, ended⟩ := placed.step (placed.inside 0 applied)
          rw [Session.upcoming, applied, direction] at applies ended
          exact ⟨ended.mpr rfl, applies⟩

/-- A step applies the first one of those ahead. Then the others are ahead, and if there are none
the end is reported. -/
theorem Placed.step_ahead {index : Nat} {rest : List Nat} (placed : Placed steps session)
    (next : session.ahead = index :: rest) :
    session.step.2.applied = some index ∧ session.step.2.ahead = rest ∧
      (session.step.1 = true ↔ rest = []) := by
  have after := placed.after
  cases direction : session.direction with
  | forward =>
      rw [placed.ahead_forward direction] at next
      have here : session.cursor < steps.size := by
        by_contra past
        rw [List.Ico.eq_nil_of_le (Nat.le_of_not_lt past)] at next
        cases next
      rw [List.Ico.eq_cons here] at next
      obtain ⟨rfl, rfl⟩ := List.cons.inj next
      obtain ⟨applies, beside, ended⟩ := step_applies (placed.whole ▸ here)
      refine ⟨applies, ?_, ?_⟩
      · rw [after.ahead_forward ((step_direction session).trans direction), beside, direction]
        rfl
      · rw [ended, direction, placed.whole, List.Ico.eq_empty_iff]
        show _ = steps.size - 1 ↔ _
        omega
  | backward =>
      have few := placed.behind_le
      have cursor := placed.cursor_behind direction
      rw [placed.ahead_backward direction] at next
      cases count : session.behind with
      | zero =>
          rw [count] at next
          cases next
      | succ last =>
          rw [count, List.range_succ, List.reverse_append] at next
          obtain ⟨rfl, rfl⟩ := List.cons.inj next
          have cursor : session.cursor = last := by omega
          have here : session.cursor < session.steps.size := by
            rw [placed.whole]
            omega
          obtain ⟨applies, _, ended⟩ := step_applies here
          rw [cursor] at applies ended
          refine ⟨applies, ?_, ?_⟩
          · rw [after.ahead_backward ((step_direction session).trans direction), behind, applies]
            rfl
          · show _ ↔ (List.range last).reverse = []
            rw [ended, direction, List.reverse_eq_nil_iff, List.range_eq_nil]
            rfl

/-- A step that does not report the end leaves something ahead. -/
theorem Placed.step_goes (placed : Placed steps session) (goes : session.step.1 = false) :
    ∃ first others, session.ahead = first :: others ∧ others ≠ [] ∧
      session.step.2.applied = some first ∧ session.step.2.ahead = others := by
  cases remaining : session.ahead with
  | nil =>
      obtain ⟨ends, _⟩ := placed.step_nothing remaining
      rw [goes] at ends
      cases ends
  | cons first others =>
      obtain ⟨applied, ahead, ended⟩ := placed.step_ahead remaining
      refine ⟨first, others, rfl, ?_, applied, ahead⟩
      intro none
      rw [ended.mpr none] at goes
      cases goes

/-! ### The loop -/

/-- One step for each one ahead and one to see the end are enough. -/
theorem Placed.resumeWithin_continues (count : Nat) :
    ∀ {session : Session}, Placed steps session → session.ahead.length < count →
      Continues session (resumeWithin count session).1 (resumeWithin count session).2 := by
  induction count with
  | zero => exact fun _ few => absurd few (Nat.not_lt_zero _)
  | succ count ih =>
      intro session placed few
      cases goes : session.step.1 with
      | true =>
          simp only [resumeWithin, goes, if_true]
          exact .ended goes
      | false =>
          cases marked : session.step.2.current?.any session.step.2.isBreakpoint with
          | true =>
              simp only [resumeWithin, goes, marked, Bool.false_eq_true, if_false, if_true]
              exact .stopped goes marked
          | false =>
              obtain ⟨first, others, remaining, _, _, ahead⟩ := placed.step_goes goes
              rw [remaining, List.length_cons] at few
              simp only [resumeWithin, goes, marked, Bool.false_eq_true, if_false]
              refine .goesOn goes marked (ih placed.after ?_)
              rw [ahead]
              omega

/-- There are no more steps ahead than steps. -/
theorem ahead_length (session : Session) : session.ahead.length ≤ session.steps.size := by
  have filtered := List.length_filter_le session.isAhead (List.range session.steps.size)
  rw [List.length_range] at filtered
  unfold ahead
  cases session.direction with
  | forward => exact filtered
  | backward =>
      rw [List.length_reverse]
      exact filtered

theorem Placed.resume_continues (placed : Placed steps session) :
    Continues session session.resume.1 session.resume.2 :=
  placed.resumeWithin_continues _ (Nat.lt_succ_of_le session.ahead_length)

/-- Where going on leads to, by the first marked step ahead. The induction is on the loop: each
round takes one step from those ahead. -/
theorem Continues.leads {answer : Bool} {after : Session}
    (continues : Continues session answer after) :
    Placed steps session →
      (∀ before index rest, session.ahead = before ++ index :: rest →
        (∀ other ∈ before, ¬ session.Marked other) → session.Marked index →
          after.applied = some index ∧ (answer = true ↔ rest = [])) ∧
      ((∀ index ∈ session.ahead, ¬ session.Marked index) →
        answer = true ∧ after.applied = session.ahead.getLast?.or session.applied) := by
  induction continues with
  | @ended session ends =>
      intro placed
      cases remaining : session.ahead with
      | nil =>
          obtain ⟨_, applied⟩ := placed.step_nothing remaining
          refine ⟨?_, fun _ => ⟨rfl, applied⟩⟩
          intro before index rest split
          exact absurd split.symm (List.append_ne_nil_of_right_ne_nil _ (List.cons_ne_nil _ _))
      | cons first others =>
          obtain ⟨applied, _, ended⟩ := placed.step_ahead remaining
          obtain rfl := ended.mp ends
          refine ⟨?_, fun _ => ⟨rfl, applied⟩⟩
          intro before index rest split _ _
          rcases List.cons_eq_append_iff.mp split with ⟨_, same⟩ | ⟨_, _, none⟩
          · obtain ⟨rfl, rfl⟩ := List.cons.inj same
            exact ⟨applied, iff_of_true rfl rfl⟩
          · exact absurd none.symm (List.append_ne_nil_of_right_ne_nil _ (List.cons_ne_nil _ _))
  | @stopped session goes marked =>
      intro placed
      obtain ⟨first, others, remaining, more, applied, _⟩ := placed.step_goes goes
      have here : session.Marked first :=
        (step_marked session first).mp ((current_isBreakpoint_iff applied).mp marked)
      rw [remaining]
      constructor
      · intro before index rest split unmarked _
        rcases List.cons_eq_append_iff.mp split with ⟨_, same⟩ | ⟨_, rfl, _⟩
        · obtain ⟨rfl, rfl⟩ := List.cons.inj same
          exact ⟨applied, iff_of_false nofun more⟩
        · exact absurd here (unmarked first List.mem_cons_self)
      · intro unmarked
        exact absurd here (unmarked first List.mem_cons_self)
  | @goesOn session after answer goes unmarked rest ih =>
      intro placed
      obtain ⟨first, others, remaining, more, applied, ahead⟩ := placed.step_goes goes
      obtain ⟨found, none⟩ := ih placed.after
      have here : ¬ session.Marked first := by
        rw [← step_marked, ← current_isBreakpoint_iff applied, unmarked]
        exact nofun
      simp only [ahead, step_marked] at found none
      rw [remaining]
      constructor
      · intro before index rest split earlier marked
        rcases List.cons_eq_append_iff.mp split with ⟨_, same⟩ | ⟨before, rfl, remains⟩
        · obtain ⟨rfl, -⟩ := List.cons.inj same
          exact absurd marked here
        · have earlier := fun other inside => earlier other (List.mem_cons_of_mem first inside)
          exact found before index rest remains earlier marked
      · intro unmarked
        have unmarked := fun index inside => unmarked index (List.mem_cons_of_mem first inside)
        obtain ⟨ended, last⟩ := none unmarked
        refine ⟨ended, last.trans ?_⟩
        rw [applied, List.getLast?_cons]
        cases others.getLast? <;> rfl

end

end Session

open Session in
/-- Going on, whatever a session was told to do. It ends; the first marked step ahead is applied if
there is one, otherwise the last step ahead, or if nothing is ahead the applied step stays. The
answer is that the end was reached if no step ahead is marked, and also if the first marked one is
the last one ahead. -/
theorem resume_stops (provider : Provider) (sources : Sources) (transaction : Transaction)
    (steps : List Step) (nocache : Bool) (number : Nat)
    (mined : transaction.block = some number) :
    ∃ session, Session.start sources transaction steps nocache = .ok session ∧
      ∀ operations : List Operation,
        let now := operations.foldl (perform provider) session
        let answer := now.resume.1
        let after := now.resume.2
        Continues now answer after ∧
        (∀ before index rest, now.ahead = before ++ index :: rest →
          (∀ other ∈ before, ¬ now.Marked other) → now.Marked index →
            after.applied = some index ∧ (answer = true ↔ rest = [])) ∧
        ((∀ index ∈ now.ahead, ¬ now.Marked index) →
          answer = true ∧ after.applied = now.ahead.getLast?.or now.applied) := by
  obtain ⟨session, started, _⟩ := Sound.start provider sources transaction steps nocache mined
  refine ⟨session, started, fun operations => ?_⟩
  obtain ⟨placed, _⟩ := Placed.start sources transaction steps nocache started
  have placed := placed.perform provider operations
  exact ⟨placed.resume_continues, placed.resume_continues.leads placed⟩

namespace Sample

/-- A step that starts on a line. -/
def onLine (line : Nat) : Step :=
  { listed 0x10 with range := ⟨some ⟨line, 5⟩, none⟩ }

def breakpoints : Breakpoints :=
  (∅ : Breakpoints).insert "Counter.sol" [3]

end Sample

/-- With a breakpoint on the line of the last of two steps, that step is applied and the end is
reported. -/
theorem resume_stops_last :
    ∃ session, Session.start ∅ ⟨0, some 0x10, [], some 6⟩
        [Sample.onLine 2, Sample.onLine 3] false = .ok session ∧
      let now := [.mark Sample.breakpoints].foldl (Session.perform Sample.chain) session
      now.ahead = [0, 1] ∧ ¬ now.Marked 0 ∧ now.Marked 1 ∧
        now.resume.2.applied = some 1 ∧ now.resume.1 = true := by
  obtain ⟨session, started, resumes⟩ := resume_stops Sample.chain ∅ ⟨0, some 0x10, [], some 6⟩
    [Sample.onLine 2, Sample.onLine 3] false 6 rfl
  obtain ⟨-, stops, -⟩ := resumes [.mark Sample.breakpoints]
  refine ⟨session, started, ?_⟩
  intro now
  obtain rfl := Except.ok.inj started
  have lines : now.breakpoints["Counter.sol"]? = some [3] :=
    Std.ExtTreeMap.getElem?_insert_self
  have first : ¬ now.Marked 0 := by
    rintro ⟨step, line, marks, here, starts, found, inside⟩
    obtain rfl : Sample.onLine 2 = step := Option.some.inj here
    obtain rfl : 2 = line := Option.some.inj starts
    obtain rfl : [3] = marks := Option.some.inj (lines.symm.trans found)
    simp at inside
  have last : now.Marked 1 := ⟨Sample.onLine 3, 3, [3], rfl, rfl, lines, by decide⟩
  obtain ⟨applied, ended⟩ := stops [0] 1 [] rfl (List.forall_mem_singleton.mpr first) last
  refine ⟨rfl, first, last, ?_, ended.mpr rfl⟩
  with_reducible exact applied

end SolTrace
