import LuaGraph.Chunk.Parser
import LuaGraph.Heap

/-!
# Running chunks

A chunk runs on a heap, in an environment that is a table: a name that is no local variable stands
for an entry of it, and `_ENV` for the table itself. Functions run where they are written, so a
stack of scopes is all that a name needs.

Loops count in integers if the start and the step are integers, else in floats. The limit is
compared as a float in both cases. Integers stop counting at the last one that 64 bits hold. A float
may be so large that adding the step does not change it: then the body runs on with the same counter
until it fails, and a body that never does is given up after more rounds than there are floats.

A `Machine` is an `Interpreter`, `inScope` is its `scoped`, `assignName` and `assignIndex` are its
`assign`, `number` is its `eval_number`, `arithmetic` is `arith` and `loop` is `exec_for`. `load` is
`Loader::load`, and `loadBytes` is `from_reader`.

Out of scope: a loop whose body never fails and whose counter stands still. There it never ends;
here it is given up.
-/

namespace LuaGraph.Chunk

/-! ## Machines -/

/-- The local variables of a block with their values. -/
abbrev Scope := List (String × Value)

/-- The heap, the environment, and the open scopes, the innermost first. -/
structure Machine where
  heap : Heap
  environment : TableId
  scopes : List Scope := [[]]

/-- Running a part of a chunk. The machine is left behind by faults too. -/
abbrev Run := EStateM RunFault Machine

namespace Scope

/-- Gives a variable a value, declared before or not. -/
def put (name : String) (v : Value) : Scope → Scope
  | [] => [(name, v)]
  | e :: es => if e.1 = name then (name, v) :: es else e :: put name v es

end Scope

namespace Run

/-! ## Variables -/

/-- Runs in a scope of its own, which is closed in any case. -/
def inScope {α : Type} (locals : Scope) (run : Run α) : Run α := fun m =>
  match run { m with scopes := locals :: m.scopes } with
  | .ok a m => .ok a { m with scopes := m.scopes.drop 1 }
  | .error e m => .error e { m with scopes := m.scopes.drop 1 }

/-- The value of a local variable: that of the innermost scope which declares it. -/
def local? (scopes : List Scope) (name : String) : Option Value :=
  scopes.findSome? (·.lookup name)

/-- The value of a name. -/
def lookup (name : String) : Run Value := do
  let m ← get
  match local? m.scopes name with
  | some v => return v
  | none =>
    if name = "_ENV" then return .table m.environment
    else return (m.heap.table m.environment).get (.string name)

/-- Changes a local variable in the innermost scope that declares it. -/
def assignLocal (name : String) (v : Value) : List Scope → List Scope
  | [] => []
  | scope :: scopes =>
    if (scope.lookup name).isSome then scope.put name v :: scopes
    else scope :: assignLocal name v scopes

/-- Declares a local variable in the innermost scope. -/
def declare (name : String) (v : Value) : Run Unit :=
  modify fun m => { m with scopes := match m.scopes with
    | scope :: scopes => scope.put name v :: scopes
    | [] => [] }

/-! ## Tables -/

/-- Assigns to a key of a table. -/
def setEntry (t : TableId) (k v : Value) : Run Unit := fun m =>
  match k.toKey with
  | .error f => .error (.badKey f) m
  | .ok k => .ok () { m with heap := m.heap.update t (·.write k v) }

/-- Adds a table without entries. -/
def newTable : Run TableId :=
  modifyGet fun m => let (t, heap) := m.heap.add .empty; (t, { m with heap })

/-- Adds a function. -/
def newFunction : Run Handle :=
  modifyGet fun m => let (h, heap) := m.heap.addHandle "anonymous"; (h, { m with heap })

/-- Gives a name a value. -/
def assignName (name : String) (v : Value) : Run Unit := do
  let m ← get
  if (local? m.scopes name).isSome then
    modify fun m => { m with scopes := assignLocal name v m.scopes }
  else if name = "_ENV" then throw .assignEnvironment
  else setEntry m.environment (.string name) v

/-- Assigns to a key of what an expression has turned out to be. -/
def assignIndex (object k v : Value) : Run Unit :=
  match object with
  | .table t => setEntry t k v
  | o => throw (.index o.kind)

/-- The value of a key of what an expression has turned out to be. -/
def index (object k : Value) : Run Value :=
  match object with
  | .table t => return ((← get).heap.table t).get k
  | o => throw (.index o.kind)

/-! ## Arithmetic -/

/-- The number that a value is. -/
def number (role : Role) (v : Value) : Run Number :=
  match v with
  | .number n => return n
  | o => throw (.notANumber role o.kind)

/-- The opposite number; integers wrap around. -/
def negate (v : Value) : Run Value :=
  match v with
  | .number (.integer i) => return .number (.integer (-i))
  | .number (.float x) => return .number (.float (-x))
  | o => throw (.negate o.kind)

/-- Arithmetic on floats. -/
def floatArithmetic (op : Operator) (x y : Float) : Float :=
  match op with
  | .add => x + y
  | .sub => x - y
  | .mul => x * y
  | .div => x / y

/-- **Arithmetic.** Sums, differences and products of integers are integers and wrap around;
everything else is computed in floats. -/
def arithmetic (op : Operator) (a b : Number) : Number :=
  match op, a, b with
  | .add, .integer i, .integer j => .integer (i + j)
  | .sub, .integer i, .integer j => .integer (i - j)
  | .mul, .integer i, .integer j => .integer (i * j)
  | op, a, b => .float (floatArithmetic op a.toFloat b.toFloat)

/-! ## Loops -/

/-- A counter that moves by `step` has not passed the limit. -/
def withinLimit (x step limit : Float) : Bool :=
  (Binary64.below 0 step && Binary64.atMost x limit) ||
    (Binary64.below step 0 && Binary64.atMost limit x)

/-- An integer counter that moves by `step` has not passed the limit. -/
def withinLimitInt (i step : Int) (limit : Float) : Bool :=
  (decide (0 < step) && Binary64.atMost (Binary64.ofInt i) limit) ||
    (decide (step < 0) && Binary64.atMost limit (Binary64.ofInt i))

/-- Runs a body for an integer counter, from `i` on. -/
def integerLoop (body : Value → Run Unit) (limit : Float) (step i : Int) : Run Unit := fun m =>
  if withinLimitInt i step limit then
    match body (.ofInt64 (Int64.ofInt i)) m with
    | .error e m => .error e m
    | .ok () m =>
      if _h : step ≠ 0 ∧ -2 ^ 63 ≤ i + step ∧ i + step < 2 ^ 63 then
        integerLoop body limit step (i + step) m
      else .ok () m
  else .ok () m
termination_by if 0 < step then (2 ^ 63 - i).toNat else (i + 2 ^ 63).toNat
decreasing_by split <;> omega

/-- A number of rounds that no loop over floats comes to while its counter moves on: there are
fewer floats. -/
def endlessRounds : Nat := 2 ^ 64

/-- Runs a body for a float counter, from `x` on, for a number of rounds at most. -/
def floatLoop (body : Value → Run Unit) (limit step : Float) : Nat → Float → Run Unit
  | 0, _ => fun m => .error .endless m
  | rounds + 1, x => fun m =>
    if withinLimit x step limit then
      match body (.number (.float x)) m with
      | .error e m => .error e m
      | .ok () m => floatLoop body limit step rounds (x + step) m
    else .ok () m

/-- **A loop** over a counter. -/
def loop (body : Value → Run Unit) (start limit step : Number) : Run Unit :=
  match start, step with
  | .integer i, .integer step =>
    if step = 0 then throw .stepZero
    else integerLoop body limit.toFloat step.toInt i.toInt
  | start, step =>
    if Binary64.equal step.toFloat 0 then throw .stepZero
    else floatLoop body limit.toFloat step.toFloat endlessRounds start.toFloat

end Run

/-! ## Evaluation -/

mutual

/-- The value of an expression. -/
def Expr.eval : Expr → Run Value
  | .nil => return .nil
  | .boolean b => return .boolean b
  | .number n => return .number n
  | .string s => return .string s
  | .name s => Run.lookup s
  | .index object key => do
    let object ← object.eval
    Run.index object (← key.eval)
  | .function _ => return .function (← Run.newFunction)
  | .call callee args => do
    evalAll args
    match callee with
    | .function body =>
      Run.inScope [] (execAll body)
      return .nil
    | callee => throw (.call (← callee.eval).kind)
  | .table parts => do
    let t ← Run.newTable
    fill t 0 parts
    return .table t
  | .negate operand => do Run.negate (← operand.eval)
  | .binary op left right => do
    let a ← Run.number .operand (← left.eval)
    let b ← Run.number .operand (← right.eval)
    return .number (Run.arithmetic op a b)

/-- Evaluates arguments. No function takes any, so their values are dropped. -/
def evalAll : List Expr → Run Unit
  | [] => return ()
  | e :: es => do
    let _ ← e.eval
    evalAll es

/-- Stores the parts of a constructor in a table, the items after `position` others. -/
def fill (t : TableId) (position : Nat) : List Part → Run Unit
  | [] => return ()
  | .item value :: parts => do
    Run.setEntry t (.index (position + 1)) (← value.eval)
    fill t (position + 1) parts
  | .pair key value :: parts => do
    let key ← key.eval
    Run.setEntry t key (← value.eval)
    fill t position parts

/-- Runs a statement. -/
def Stat.exec : Stat → Run Unit
  | .declare name value => do Run.declare name (← value.eval)
  | .assign target value => do
    let value ← value.eval
    match target with
    | .name s => Run.assignName s value
    | .index object key => do
      let object ← object.eval
      Run.assignIndex object (← key.eval) value
    | _ => throw .assignOther
  | .loop counter start limit step body => do
    let start ← Run.number .forStart (← start.eval)
    let limit ← Run.number .forLimit (← limit.eval)
    let step ← Run.number .forStep (← step.eval)
    Run.loop (fun v => Run.inScope [(counter, v)] (execAll body)) start limit step
  | .block body => Run.inScope [] (execAll body)
  | .call callee => do
    let _ ← callee.eval

/-- Runs statements one after the other. -/
def execAll : List Stat → Run Unit
  | [] => return ()
  | s :: ss => do
    s.exec
    execAll ss

end

/-! ## Loading -/

/-- Runs a chunk in a new environment of a heap, and gives that. -/
def run (body : List Stat) (H : Heap) : Except Error (TableId × Heap) :=
  let (environment, heap) := H.add .empty
  match execAll body { heap, environment } with
  | .ok () m => .ok (environment, m.heap)
  | .error f _ => .error (.run f)

/-- **Loads a text**: its tree is run in a new environment. -/
def load (limits : Limits) (text : String) (H : Heap) : Except Error (TableId × Heap) :=
  match parse limits text with
  | .ok body => run body H
  | .error e => .error (located e)

/-- Loads a text that is given as bytes. -/
def loadBytes (limits : Limits) (bytes : ByteArray) (H : Heap) : Except Error (TableId × Heap) :=
  match String.fromUTF8? bytes with
  | some text => load limits text H
  | none => .error (.transfer .notText)

end LuaGraph.Chunk
