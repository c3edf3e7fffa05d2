import NumericTower.Operator.Apply
import NumericTower.Number.Literal
import NumericTower.Number.Order
/-!
# Registers and programs

Numbers under names, and the steps that compute with them. A step's
operands are literals or registers; its result is answered and, if the
step says where, stored. A step that fails changes nothing, and the
program goes on with the next one.

The operators need none of this: the tower keeps no number from one
operation to the next. Registers are for a front end that is handed whole
programs. It decodes a step, runs it (`Step.run`) and writes the answer, and
after the last step the registers. So a composition of operators can be run
as a list of steps.
-/

namespace NumericTower

/-- Numbers under names, in the order in which the names were first
set. -/
structure Registers where
  entries : List (String × Number)

namespace Registers

/-- No registers set. -/
def empty : Registers := ⟨[]⟩

/-- The number under a name. -/
def get? (registers : Registers) (name : String) : Option Number :=
  registers.entries.lookup name

/-- The entries with a name's number replaced, or added at the end. -/
def setEntry (name : String) (value : Number) : List (String × Number) → List (String × Number)
  | [] => [(name, value)]
  | (key, old) :: rest =>
    if key = name then (name, value) :: rest else (key, old) :: setEntry name value rest

/-- Puts a number under a name. -/
def set (registers : Registers) (name : String) (value : Number) : Registers :=
  ⟨setEntry name value registers.entries⟩

end Registers

/-- Where a step takes a number from. -/
inductive Operand where
  | literal (text : String)
  | register (name : String)
  /-- The step does not give the operand in this place. -/
  | absent (place : String)

/-- A dollar sign marks the name of a register; any other text is a
literal. -/
def Operand.ofText (text : String) : Operand :=
  match text.toList with
  | '$' :: name => .register (.ofList name)
  | _ => .literal text

/-- Why a step fails. -/
inductive StepFault where
  | emptyRegister
  | absentOperand (place : String)
  | numeric (error : NumericError)

/-- The number that an operand denotes. -/
def Operand.value (registers : Registers) : Operand → Except StepFault Number
  | .literal text =>
    match Number.ofText? text with
    | .ok n => .ok n
    | .error e => .error (.numeric e)
  | .register name =>
    match registers.get? name with
    | some n => .ok n
    | none => .error .emptyRegister
  | .absent place => .error (.absentOperand place)

/-- What a step does with its operands. -/
inductive Action where
  | put (a : Operand)
  | compare (a b : Operand)
  | binary (op : BinaryOp) (limits : Limits) (a b : Operand)
  | unary (op : UnaryOp) (a : Operand)

/-- A step of a program: what it does, and the register for the result. -/
structure Step where
  action : Action
  target : Option String

/-- What a step answers. -/
inductive StepAnswer where
  | number (n : Number)
  /-- Two numbers, to be compared. -/
  | compared (a b : Number)

/-- The outcome of an operator within a step. -/
def StepAnswer.ofOutcome : Outcome → Except StepFault StepAnswer
  | .ok n => .ok (.number n)
  | .error e => .error (.numeric e)

/-- What an action answers; operands are read from left to right. -/
def Action.answer (registers : Registers) : Action → Except StepFault StepAnswer
  | .put a => do return .number (← a.value registers)
  | .compare a b => do
    let x ← a.value registers
    let y ← b.value registers
    return .compared x y
  | .binary op limits a b => do
    let x ← a.value registers
    let y ← b.value registers
    StepAnswer.ofOutcome (op.apply limits x y)
  | .unary op a => do
    let x ← a.value registers
    StepAnswer.ofOutcome (op.apply x)

/-- Runs a step: its answer, and the registers after it. A comparison
stores nothing. -/
def Step.run (registers : Registers) (step : Step) :
    Except StepFault StepAnswer × Registers :=
  let answer := step.action.answer registers
  match answer, step.target with
  | .ok (.number n), some name => (answer, registers.set name n)
  | _, _ => (answer, registers)

end NumericTower
