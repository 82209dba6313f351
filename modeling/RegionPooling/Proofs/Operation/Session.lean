import RegionPooling.Operation.Session
import RegionPooling.Proofs.Operation.Preparation

/-!
# Sessions stay usable

The parameters of an operation are usable by its type. What a session does to them is told here
without that type: `Step.settle` is a step on parameters alone, which puts in place what the step
offers if that is usable, and otherwise keeps what there is. A session and a run of `settle` go
through the same parameters, and a run of `settle` only ever holds usable ones, since nothing
else gets past it: neither a scale that overflowed to infinity or vanished to zero when it was
converted, nor a document in which a later parameter turns out not to be usable.

A step replaces the whole operation or none of it. So a step that fails changes nothing, and one
that names a parameter changes that one. As pooling with usable parameters has no cause to
complain about them, it does not.

Main results:

* `Operation.session_params` — a session is a run of `settle`.
* `Operation.sessionStep_of_error` — a step that fails changes nothing.
* `Operation.setParam_eq_ok`, `Operation.setParam_eq_error` — replacing by name touches the
  named parameter, and complains about no other.
* `Operation.session_stays_usable` — all of this for every session.
-/

namespace RegionPooling.Operation

/-! ## Replacing by name -/

theorem setParam_eq_ok {op new : Operation} {name : String} {v : Value}
    (h : op.setParam name v = .ok new) : Params.AgreeExcept name op.params new.params := by
  obtain ⟨q, hreplace, hnew⟩ := bind_eq_ok.mp h
  rw [params_of_ofParams hnew]
  exact Params.agreeExcept_of_replace hreplace

theorem setParam_eq_error {op : Operation} {name : String} {v : Value} {error : Error}
    (h : op.setParam name v = .error error) : ∃ reason, error = .invalidParameter name reason := by
  rcases bind_eq_error.mp h with hreplace | ⟨q, hreplace, hrefused⟩
  · exact Params.replace_eq_error hreplace
  · exact Params.name_of_validate_replace op.usable hreplace (validate_of_ofParams hrefused)

/-! ## Steps on parameters alone -/

/-- The parameters that a step offers for those there are, usable or not. -/
def Step.offer? (current : Option Params) : Step → Option Params
  | .create p => some p
  | .setParam name v => current.bind fun p => (p.replace name v).toOption
  | .replace v => current.bind fun _ => (Params.ofValue v).toOption
  | _ => none

/-- Puts in place what a step offers, if it is usable. -/
def Step.settle (current : Option Params) (s : Step) : Option Params :=
  ((s.offer? current).filter fun p => p.Usable).or current

/-- Nothing but usable parameters gets in. -/
theorem Step.usable_of_settle {current : Option Params} {s : Step}
    (hcurrent : ∀ p, current = some p → p.Usable) {p : Params} (h : s.settle current = some p) :
    p.Usable := by
  unfold settle at h
  rcases Option.or_eq_some_iff.mp h with hoffer | ⟨-, hcurrent'⟩
  · exact of_decide_eq_true (Option.filter_eq_some_iff.mp hoffer).2
  · exact hcurrent p hcurrent'

/-- By induction along the steps, from any parameters that are usable. -/
theorem usable_of_settled {steps : List Step} {current : Option Params}
    (hcurrent : ∀ p, current = some p → p.Usable) {p : Params}
    (h : steps.foldl Step.settle current = some p) : p.Usable := by
  induction steps generalizing current with
  | nil => exact hcurrent p h
  | cons s rest ih =>
    have hstep : ∀ q, s.settle current = some q → q.Usable := by
      intro q hq
      exact Step.usable_of_settle hcurrent hq
    exact ih hstep h

/-- Of parameters that could be made, the usable ones are in the operation. -/
theorem map_params_bind_ofParams (x : Except Error Params) :
    ((x >>= ofParams).toOption).map params = x.toOption.filter fun p => p.Usable := by
  cases x with
  | error error => rfl
  | ok p =>
    show ((ofParams p).toOption).map params = (some p).filter fun p => p.Usable
    cases hmade : ofParams p with
    | ok op =>
      obtain rfl := params_of_ofParams hmade
      rw [Option.filter_some, if_pos (decide_eq_true op.usable)]
      rfl
    | error error =>
      have hunusable : ¬ p.Usable := by
        intro husable
        have hvalid := Params.validate_eq_ok_iff.mpr husable
        rw [validate_of_ofParams hmade] at hvalid
        cases hvalid
      rw [Option.filter_some, if_neg (by simpa using hunusable)]
      rfl

theorem toOption_mapError {ε δ α : Type} (x : Except ε α) (f : ε → δ) :
    (x.mapError f).toOption = x.toOption := by
  cases x with
  | error error => rfl
  | ok a => rfl

/-- What is renewed is what could be made, and else the old operation stays. -/
theorem map_params_renew (old : Option Operation) (x : Except Error Params) :
    (Answer.renew old (x >>= ofParams)).2.map params =
      (x.toOption.filter fun p => p.Usable).or (old.map params) := by
  rw [← map_params_bind_ofParams x, ← Option.map_or]
  cases x >>= ofParams with
  | error error => rfl
  | ok op => rfl

/-- A step of a session is a step on its parameters. -/
theorem sessionStep_params (op : Option Operation) (s : Step) :
    (sessionStep op s).2.map params = s.settle (op.map params) := by
  cases op with
  | none =>
    -- Before the first operation, there is nothing to replace.
    cases s with
    | create p => exact map_params_renew none (.ok p)
    | _ => rfl
  | some op =>
    cases s with
    | create p => exact map_params_renew (some op) (.ok p)
    | setParam name v => exact map_params_renew (some op) (op.params.replace name v)
    | replace v =>
      have hrenew := map_params_renew (some op) ((Params.ofValue v).mapError .unreadable)
      rw [toOption_mapError] at hrenew
      exact hrenew
    | _ => rfl

/-- By induction along the steps, from any operation or none. -/
theorem foldl_sessionStep_params (op : Option Operation) (steps : List Step) :
    (steps.foldl (fun op s => (sessionStep op s).2) op).map params =
      steps.foldl Step.settle (op.map params) := by
  induction steps generalizing op with
  | nil => rfl
  | cons s rest ih => exact (ih _).trans (by rw [sessionStep_params]; rfl)

/-- A session is a run of `settle`, and begins without parameters. -/
theorem session_params (steps : List Step) :
    (session steps).map params = steps.foldl Step.settle none :=
  foldl_sessionStep_params none steps

/-! ## Steps that fail, and steps that go through -/

theorem session_concat (steps : List Step) (s : Step) :
    session (steps ++ [s]) = (sessionStep (session steps) s).2 := by
  simp [session]

theorem renew_eq_error {old : Option Operation} {result : Except Error Operation}
    {refusal : Refusal} (h : (Answer.renew old result).1 = .error refusal) :
    (Answer.renew old result).2 = old := by
  cases result with
  | error error => rfl
  | ok op => cases h

/-- A step that fails leaves the operation as it was; one that only looks does so anyway. -/
theorem sessionStep_of_error {op : Option Operation} {s : Step} {refusal : Refusal}
    (h : (sessionStep op s).1 = .error refusal) : (sessionStep op s).2 = op := by
  cases op with
  | none =>
    cases s with
    | create p => exact renew_eq_error h
    | _ => rfl
  | some op =>
    cases s with
    | create p => exact renew_eq_error h
    | setParam name v => exact renew_eq_error h
    | replace v => exact renew_eq_error h
    | _ => rfl

/-- A step that replaces by name and goes through has a new operation. -/
theorem exists_new_of_setParam {op : Operation} {name : String} {v : Value} {answer : Answer}
    (h : (op.step (.setParam name v)).1 = .ok answer) :
    ∃ new, op.setParam name v = .ok new ∧ (op.step (.setParam name v)).2 = some new := by
  unfold step at h ⊢
  dsimp only at h ⊢
  cases hnew : op.setParam name v with
  | error error =>
    rw [hnew] at h
    cases h
  | ok new => exact ⟨new, rfl, rfl⟩

/--
After any steps, the parameters are those that the steps settle on, and they are usable. A step
that fails then changes nothing; a parameter that is replaced by name is the only one to change;
and neither preparing nor pooling complains about a parameter.
-/
theorem session_stays_usable (steps : List Step) :
    (session steps).map params = steps.foldl Step.settle none ∧
    (∀ op, session steps = some op → op.params.Usable) ∧
    (∀ s refusal, (sessionStep (session steps) s).1 = .error refusal →
      session (steps ++ [s]) = session steps) ∧
    (∀ op name v answer, session steps = some op → (op.step (.setParam name v)).1 = .ok answer →
      ∃ new, session (steps ++ [.setParam name v]) = some new ∧
        Params.AgreeExcept name op.params new.params) ∧
    ∀ op, session steps = some op → ∀ name reason,
      (∀ input regions, op.prepare input regions ≠ .error (.invalidParameter name reason)) ∧
      ∀ input regions, op.execute input regions ≠
        .error (.failed (.invalidParameter name reason)) := by
  refine ⟨session_params steps, ?_, ?_, ?_, ?_⟩
  · intro op hop
    have hsettled := session_params steps
    rw [hop] at hsettled
    have hnone : ∀ p, (none : Option Params) = some p → p.Usable := by
      intro p hp
      cases hp
    exact usable_of_settled hnone hsettled.symm
  · intro s refusal h
    rw [session_concat]
    exact sessionStep_of_error h
  · intro op name v answer hop h
    obtain ⟨new, hset, hstep⟩ := exists_new_of_setParam h
    refine ⟨new, ?_, setParam_eq_ok hset⟩
    rw [session_concat, hop]
    exact hstep
  · intro op hop name reason
    refine ⟨?_, ?_⟩
    · intro input regions h
      exact (refuses_prepare op input regions _ h).not_parameter name reason rfl
    · intro input regions h
      exact (refuses_execute op input regions _ h _ rfl).not_parameter name reason rfl

/-- Makes an operation and sets its sampling ratio. -/
def twoSamples : List Step :=
  [.create (.ofGrid 2 2), .setParam "sampling_ratio" (.number (.whole 2))]

/-- Asks for a grid without columns, which is a number that fits but no usable one. -/
def noColumns : Step := .setParam "output_width" (.number (.whole 0))

-- Names of parameters are compared character by character.
set_option maxRecDepth 4000 in
/-- After `twoSamples`, no columns are refused, and the rows are replaced alone. -/
theorem twoSamples_stays_usable : ∃ op, session twoSamples = some op ∧ op.params.Usable ∧
    session (twoSamples ++ [noColumns]) = some op ∧
    ∃ new, session (twoSamples ++ [.setParam "output_height" (.number (.whole 3))]) = some new ∧
      new.params.outputHeight = 3 ∧ Params.AgreeExcept "output_height" op.params new.params := by
  obtain ⟨-, husable, hfail, hset, -⟩ := session_stays_usable twoSamples
  obtain ⟨new, hnew, hagree⟩ := hset _ "output_height" (.number (.whole 3)) .done rfl rfl
  have hrefused := hfail noColumns _ rfl
  refine ⟨_, rfl, husable _ rfl, hrefused, new, hnew, ?_, hagree⟩
  obtain rfl := Option.some.inj hnew
  rfl

end RegionPooling.Operation
