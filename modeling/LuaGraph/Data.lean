import LuaGraph.Heap

/-!
# Structured data

Data of a program (numbers, texts, sequences, records, tagged alternatives) is converted to values.
Conventions:

* What is absent is nil, and so is a unit. A sequence keeps the places of its elements, so an absent
  one leaves a hole, and an absent field or map value leaves no entry.
* What is present, and what is wrapped in a type of its own, is what it holds.
* A natural number that 64 signed bits cannot hold becomes the closest float.
* An alternative that holds nothing is its tag. One that holds something is a table with the tag as
  its only key.
* A map is given as it comes in, key by key and value by value. A key that is absent is refused at
  once, NaN when its value has come.
* Integers of 128 bits are refused.

`Data` is what a type says of itself to `ValueSerializer`, one constructor for a kind of call, and
`Data.toValue` is `to_value`. `storeElements` and `storeFields` are `serialize_element` and
`serialize_field`, `storeCalls` is `serialize_key` and `serialize_value`, and the last case of
`toValue` is `tagged`.

Out of scope: what a type does with a refusal. It hands it on, as derived code does.
-/

namespace LuaGraph

/-- A kind of integer that is refused. -/
inductive Wide
  | signed
  | unsigned
deriving DecidableEq, Repr

/-- The name of a kind of integer that is refused. -/
def Wide.name : Wide → String
  | signed => "i128"
  | unsigned => "u128"

mutual

/-- Structured data. -/
inductive Data
  | absent
  | present (d : Data)
  | unit
  | wrapped (d : Data)
  | boolean (b : Bool)
  | signed (i : Int64)
  | unsigned (n : UInt64)
  | wide (w : Wide)
  | single (x : Float32)
  | double (x : Float)
  | text (s : String)
  | bytes (bs : List UInt8)
  | sequence (elements : List Data)
  | record (fields : List DataField)
  | map (calls : List MapCall)
  | alternative (tag : String)
  | tagged (tag : String) (payload : Data)

/-- A named part of a record. -/
inductive DataField
  | mk (name : String) (value : Data)

/-- A key or a value of a map. -/
inductive MapCall
  | key (d : Data)
  | value (d : Data)

end

instance : Inhabited Data := ⟨.absent⟩

/-- Building tables of a heap, or failing. -/
abbrev Build := StateT Heap (Except Error)

namespace Build

/-- Adds a table. -/
def newTable (t : Table) : Build TableId := fun H => .ok (H.add t)

/-- Assigns to a key of a table. -/
def set (t : TableId) (k v : Value) : Build Unit := fun H =>
  match H.set t k v with
  | .ok H => .ok ((), H)
  | .error f => .error (.invalidKey f)

end Build

/-- The value of a natural number of 64 bits. -/
def Value.ofUInt64 (n : UInt64) : Value :=
  if n.toNat < 2 ^ 63 then .ofInt64 (Int64.ofNat n.toNat)
  else .number (.float (Binary64.ofInt n.toNat))

mutual

/-- **The value of a datum**, whose tables are added to the heap. -/
def Data.toValue : Data → Build Value
  | .absent => return .nil
  | .present d => d.toValue
  | .unit => return .nil
  | .wrapped d => d.toValue
  | .boolean b => return .boolean b
  | .signed i => return .ofInt64 i
  | .unsigned n => return .ofUInt64 n
  | .wide w => throw (.custom (w.name ++ " is not supported"))
  | .single x => return .number (.float (Binary64.ofFloat32 x))
  | .double x => return .number (.float x)
  | .text s => return .string s
  | .bytes bs => do
    return .table (← Build.newTable (.ofSequence (bs.map fun b => .ofInt64 (Int64.ofNat b.toNat))))
  | .sequence elements => do
    let t ← Build.newTable .empty
    storeElements t 0 elements
    return .table t
  | .record fields => do
    let t ← Build.newTable .empty
    storeFields t fields
    return .table t
  | .map calls => do
    let t ← Build.newTable .empty
    storeCalls t none calls
    return .table t
  | .alternative tag => return .string tag
  | .tagged tag payload => do
    let v ← payload.toValue
    let t ← Build.newTable .empty
    Build.set t (.string tag) v
    return .table t

/-- Stores elements after `place` others. -/
def storeElements (t : TableId) (place : Nat) : List Data → Build Unit
  | [] => return ()
  | d :: ds => do
    Build.set t (.index (place + 1)) (← d.toValue)
    storeElements t (place + 1) ds

/-- Stores the fields of a record. -/
def storeFields (t : TableId) : List DataField → Build Unit
  | [] => return ()
  | .mk name d :: fs => do
    Build.set t (.string name) (← d.toValue)
    storeFields t fs

/-- Stores the entries of a map; `pending` is a key that waits for its value. -/
def storeCalls (t : TableId) (pending : Option Value) : List MapCall → Build Unit
  | [] => return ()
  | .key d :: cs => do
    let k ← d.toValue
    if k = .nil then throw (.invalidKey .nil)
    storeCalls t (some k) cs
  | .value d :: cs => do
    match pending with
    | none => throw (.custom "serialize_value called without serialize_key")
    | some k =>
      Build.set t k (← d.toValue)
      storeCalls t none cs

end

end LuaGraph
