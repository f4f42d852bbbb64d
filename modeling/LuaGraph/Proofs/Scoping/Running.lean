import LuaGraph.Chunk.Run
import LuaGraph.Proofs.Scoping.Tree

/-!
# Running with a record

A tree with notes is run step by step as the one without, and a record is kept beside the machine:
the blocks that are being run, and each occurrence of a name that was evaluated or assigned to, with
what was open then (`Visit`).

The blocks around an occurrence are those in which it stands in the tree. The blocks that are being
run, and the scopes, are those that were opened in the course of the run and not closed since.
-/

namespace LuaGraph.Chunk.Noted

/-! ## Records -/

/-- An occurrence of a name that is evaluated or assigned to. -/
structure Visit extends Occurrence where
  /-- The blocks that are being run, the one that was begun last first. -/
  running : List (List Stat)
  /-- The scopes that are open. -/
  scopes : List Scope

/-- A machine with a record. -/
structure Recorder extends Machine where
  running : List (List Stat)
  visits : List Visit := []

/-- Running a part of a tree with a record. -/
abbrev Recording := EStateM RunFault Recorder

namespace Recording

variable {α : Type}

/-- A step of the machine. -/
def step (p : Run α) : Recording α := fun t =>
  match p t.toMachine with
  | .ok a m => .ok a { t with toMachine := m }
  | .error e m => .error e { t with toMachine := m }

/-- Records an occurrence. -/
def visit (o : Occurrence) : Recording Unit :=
  modify fun t => { t with visits := ⟨o, t.running, t.scopes⟩ :: t.visits }

/-- The value of a name. -/
def lookup (o : Occurrence) : Recording Value := do
  visit o
  step (Run.lookup o.name)

/-- Gives a name a value. -/
def assignName (o : Occurrence) (v : Value) : Recording Unit := do
  visit o
  step (Run.assignName o.name v)

/-- Runs a block in a scope of its own, which is closed in any case. -/
def inBlock (body : List Stat) (locals : Scope) (run : Recording α) : Recording α := fun t =>
  match run { t with scopes := locals :: t.scopes, running := body :: t.running } with
  | .ok a t => .ok a { t with scopes := t.scopes.drop 1, running := t.running.drop 1 }
  | .error e t => .error e { t with scopes := t.scopes.drop 1, running := t.running.drop 1 }

/-- Runs a body for an integer counter, from `i` on. -/
def integerLoop (body : Value → Recording Unit) (limit : Float) (step i : Int) :
    Recording Unit := fun t =>
  if Run.withinLimitInt i step limit then
    match body (.ofInt64 (Int64.ofInt i)) t with
    | .error e t => .error e t
    | .ok () t =>
      if _h : step ≠ 0 ∧ -2 ^ 63 ≤ i + step ∧ i + step < 2 ^ 63 then
        integerLoop body limit step (i + step) t
      else .ok () t
  else .ok () t
termination_by if 0 < step then (2 ^ 63 - i).toNat else (i + 2 ^ 63).toNat
decreasing_by split <;> omega

/-- Runs a body for a float counter, from `x` on, for a number of rounds at most. -/
def floatLoop (body : Value → Recording Unit) (limit step : Float) :
    Nat → Float → Recording Unit
  | 0, _ => fun t => .error .endless t
  | rounds + 1, x => fun t =>
    if Run.withinLimit x step limit then
      match body (.number (.float x)) t with
      | .error e t => .error e t
      | .ok () t => floatLoop body limit step rounds (x + step) t
    else .ok () t

/-- A loop over a counter. -/
def loop (body : Value → Recording Unit) (start limit step : Number) : Recording Unit :=
  match start, step with
  | .integer i, .integer step =>
    if step = 0 then throw .stepZero
    else integerLoop body limit.toFloat step.toInt i.toInt
  | start, step =>
    if Binary64.equal step.toFloat 0 then throw .stepZero
    else floatLoop body limit.toFloat step.toFloat Run.endlessRounds start.toFloat

end Recording

/-! ## Evaluation -/

open Recording (step inBlock)

mutual

/-- The value of an expression between these blocks. -/
def Expr.eval (Γ : List Block) : Expr → Recording Value
  | .nil => return .nil
  | .boolean b => return .boolean b
  | .number n => return .number n
  | .string s => return .string s
  | .name s known => Recording.lookup ⟨s, known, Γ⟩
  | .index object key => do
    let object ← object.eval Γ
    step (Run.index object (← key.eval Γ))
  | .function _ => return .function (← step Run.newFunction)
  | .call callee args => do
    evalAll Γ args
    match callee with
    | .function body =>
      inBlock body [] (execAll ⟨body, []⟩ Γ body)
      return .nil
    | callee => throw (.call (← callee.eval Γ).kind)
  | .table parts => do
    let t ← step Run.newTable
    fill Γ t 0 parts
    return .table t
  | .negate operand => do step (Run.negate (← operand.eval Γ))
  | .binary op left right => do
    let a ← step (Run.number .operand (← left.eval Γ))
    let b ← step (Run.number .operand (← right.eval Γ))
    return .number (Run.arithmetic op a b)

/-- Evaluates arguments. -/
def evalAll (Γ : List Block) : List Expr → Recording Unit
  | [] => return ()
  | e :: es => do
    let _ ← e.eval Γ
    evalAll Γ es

/-- Stores the parts of a constructor in a table, the items after `position` others. -/
def fill (Γ : List Block) (t : TableId) (position : Nat) : List Part → Recording Unit
  | [] => return ()
  | .item value :: parts => do
    step (Run.setEntry t (.index (position + 1)) (← value.eval Γ))
    fill Γ t (position + 1) parts
  | .pair key value :: parts => do
    let key ← key.eval Γ
    step (Run.setEntry t key (← value.eval Γ))
    fill Γ t position parts

/-- Runs a statement between these blocks. -/
def Stat.exec (Γ : List Block) : Stat → Recording Unit
  | .declare name value => do step (Run.declare name (← value.eval Γ))
  | .assign target value => do
    let value ← value.eval Γ
    match target with
    | .name s known => Recording.assignName ⟨s, known, Γ⟩ value
    | .index object key => do
      let object ← object.eval Γ
      step (Run.assignIndex object (← key.eval Γ) value)
    | _ => throw .assignOther
  | .loop counter start limit step body => do
    let start ← Recording.step (Run.number .forStart (← start.eval Γ))
    let limit ← Recording.step (Run.number .forLimit (← limit.eval Γ))
    let step ← Recording.step (Run.number .forStep (← step.eval Γ))
    Recording.loop (fun v => inBlock body [(counter, v)] (execAll ⟨body, [counter]⟩ Γ body))
      start limit step
  | .block body => inBlock body [] (execAll ⟨body, []⟩ Γ body)
  | .call callee => do
    let _ ← callee.eval Γ

/-- Runs the statements that are left of a block, one after the other. -/
def execAll (B : Block) (Γ : List Block) : List Stat → Recording Unit
  | [] => return ()
  | s :: ss => do
    s.exec (B :: Γ)
    execAll (B.after s) Γ ss

end

/-- **Runs a chunk with a record.** The chunk is itself a block. -/
def record (tree : List Stat) (m : Machine) : EStateM.Result RunFault Recorder Unit :=
  execAll ⟨tree, []⟩ [] tree { m with running := [tree] }

end LuaGraph.Chunk.Noted
