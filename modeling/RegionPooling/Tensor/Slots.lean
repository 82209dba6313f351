import RegionPooling.Tensor

/-!
# Named tensors

A collection of tensors under names, changed step by step. A step makes a tensor and puts it
under a name, changes one element, or takes a tensor out. A step that fails changes nothing.
-/

namespace RegionPooling

/-- How a tensor can be made. -/
inductive Tensor.Source where
  | data (shape : Shape) (data : Array Single)
  | zeros (shape : Shape)
  | tabulate (shape : Shape) (element : Nat → Single)
  | json (text : String)

def Tensor.Source.make : Tensor.Source → Except Stop Tensor
  | data shape numbers => (Tensor.ofData shape numbers).mapError .failed
  | zeros shape => Tensor.zeros shape
  | tabulate shape element => Tensor.tabulate shape element
  | json text => (Tensor.ofJson text).mapError .failed

/-- Tensors under names. -/
structure Slots where
  entries : List (String × Tensor)

namespace Slots

def empty : Slots := ⟨[]⟩

def get? (slots : Slots) (name : String) : Option Tensor := slots.entries.lookup name

def remove (slots : Slots) (name : String) : Slots :=
  ⟨slots.entries.filter fun entry => entry.1 != name⟩

def put (slots : Slots) (name : String) (t : Tensor) : Slots :=
  ⟨(name, t) :: (slots.remove name).entries⟩

/-- A change of the collection. -/
inductive Step where
  | make (name : String) (source : Tensor.Source)
  | set (name : String) (place : Nat) (value : Single)
  | take (name : String)

/-- Why a step fails. -/
inductive Refusal where
  | emptySlot
  | noElement
  | stopped (stop : Stop)

/-- The tensor that a step makes, changes or takes out, and the collection after it. -/
def step (slots : Slots) : Step → Except Refusal Tensor × Slots
  | .make name source =>
    match source.make with
    | .ok t => (.ok t, slots.put name t)
    | .error stop => (.error (.stopped stop), slots)
  | .set name place value =>
    match slots.get? name with
    | none => (.error .emptySlot, slots)
    | some t =>
      match t.set? place value with
      | none => (.error .noElement, slots)
      | some t => (.ok t, slots.put name t)
  | .take name =>
    match slots.get? name with
    | none => (.error .emptySlot, slots)
    | some t => (.ok t, slots.remove name)

/-- The collection after a sequence of steps. -/
def run (slots : Slots) (steps : List Step) : Slots :=
  steps.foldl (fun slots s => (slots.step s).2) slots

end Slots

end RegionPooling
