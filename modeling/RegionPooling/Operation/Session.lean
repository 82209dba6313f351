import RegionPooling.Operation

/-!
# Sessions with an operation

A session holds at most one operation and is driven by steps. The first operation comes from
parameters; later steps replace parameters, look at them, or pool. A step that fails leaves
the session as it was.
-/

namespace RegionPooling.Operation

/-- A step of a session. -/
inductive Step where
  | create (params : Params)
  | setParam (name : String) (value : Value)
  | replace (value : Value)
  | params
  | summarize
  | prepare (input regions : Shape)
  | execute (input regions : Tensor)

/-- What a step gives back. -/
inductive Answer where
  | done
  | value (value : Value)
  | shape (shape : Shape)
  | tensor (tensor : Tensor)

/-- Why a step fails. -/
inductive Refusal where
  | noOperation
  | stopped (stop : Stop)

/-- Puts an operation in the place of another one, if it could be made. -/
def Answer.renew (old : Option Operation) :
    Except Error Operation → Except Refusal Answer × Option Operation
  | .ok op => (.ok .done, some op)
  | .error error => (.error (.stopped (.failed error)), old)

/-- A step on an existing operation. -/
def step (op : Operation) : Step → Except Refusal Answer × Option Operation
  | .create p => Answer.renew (some op) (ofParams p)
  | .setParam name v => Answer.renew (some op) (op.setParam name v)
  | .replace v => Answer.renew (some op) (ofValue v)
  | .params => (.ok (.value op.params.toValue), some op)
  | .summarize => (.ok (.value op.params.summary), some op)
  | .prepare input regions =>
    (((op.prepare input regions).map .shape).mapError fun error => .stopped (.failed error),
      some op)
  | .execute input regions =>
    (((op.execute input regions).map .tensor).mapError .stopped, some op)

/-- A step of a session. Before the first operation, only one can be created. -/
def sessionStep : Option Operation → Step → Except Refusal Answer × Option Operation
  | some op, s => op.step s
  | none, .create p => Answer.renew none (ofParams p)
  | none, _ => (.error .noOperation, none)

/-- The session after a sequence of steps. -/
def session (steps : List Step) : Option Operation :=
  steps.foldl (fun op s => (sessionStep op s).2) none

end RegionPooling.Operation
