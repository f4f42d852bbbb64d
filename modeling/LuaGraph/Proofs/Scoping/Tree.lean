import LuaGraph.Chunk.Expr

/-!
# Trees with notes

A tree of a chunk in which each name that stands for a value is noted: the parser has known it as a
local variable there, or it has not.

* `erase` gives the tree without notes.
* A *block* is a row of statements with the names that it has declared before some place in it. The
  bodies of blocks, loops and functions are blocks, and so is the whole chunk.
* The *occurrences* of names in a tree are listed with the blocks around each of them, the innermost
  first. The note of an occurrence is *right* if the name is known exactly if one of these blocks
  has declared it.
* A tree is *resolved* between some scopes if its notes are right. The scopes are the names that the
  blocks around it have declared, and nothing more need be known of them.

Result: `right_of_resolved`, where a chunk is resolved all its notes are right.
-/

namespace LuaGraph.Chunk.Noted

/-! ## Trees -/

mutual

/-- An expression. A name is noted to be known as a local variable or not. -/
inductive Expr
  | nil
  | boolean (b : Bool)
  | number (n : Number)
  | string (s : String)
  | name (s : String) (known : Bool)
  | index (object key : Expr)
  | call (callee : Expr) (args : List Expr)
  | function (body : List Stat)
  | table (parts : List Part)
  | negate (operand : Expr)
  | binary (op : Operator) (left right : Expr)

/-- A part of a table constructor. -/
inductive Part
  | item (value : Expr)
  | pair (key value : Expr)

/-- A statement. -/
inductive Stat
  | declare (name : String) (value : Expr)
  | assign (target value : Expr)
  | loop (counter : String) (start limit step : Expr) (body : List Stat)
  | block (body : List Stat)
  | call (callee : Expr)

end

/-! ## Without notes -/

mutual

/-- The expression without notes. -/
def Expr.erase : Expr → Chunk.Expr
  | .nil => .nil
  | .boolean b => .boolean b
  | .number n => .number n
  | .string s => .string s
  | .name s _ => .name s
  | .index object key => .index object.erase key.erase
  | .call callee args => .call callee.erase (eraseArgs args)
  | .function body => .function (eraseBody body)
  | .table parts => .table (eraseParts parts)
  | .negate operand => .negate operand.erase
  | .binary op left right => .binary op left.erase right.erase

/-- The part without notes. -/
def Part.erase : Part → Chunk.Part
  | .item value => .item value.erase
  | .pair key value => .pair key.erase value.erase

/-- The statement without notes. -/
def Stat.erase : Stat → Chunk.Stat
  | .declare name value => .declare name value.erase
  | .assign target value => .assign target.erase value.erase
  | .loop counter start limit step body =>
    .loop counter start.erase limit.erase step.erase (eraseBody body)
  | .block body => .block (eraseBody body)
  | .call callee => .call callee.erase

/-- The arguments without notes. -/
def eraseArgs : List Expr → List Chunk.Expr
  | [] => []
  | e :: es => e.erase :: eraseArgs es

/-- The parts without notes. -/
def eraseParts : List Part → List Chunk.Part
  | [] => []
  | p :: ps => p.erase :: eraseParts ps

/-- The statements without notes. -/
def eraseBody : List Stat → List Chunk.Stat
  | [] => []
  | s :: ss => s.erase :: eraseBody ss

end

theorem eraseArgs_eq_map (es : List Expr) : eraseArgs es = es.map Expr.erase := by
  induction es with
  | nil => rfl
  | cons e es ih => rw [eraseArgs, ih, List.map_cons]

theorem eraseParts_eq_map (ps : List Part) : eraseParts ps = ps.map Part.erase := by
  induction ps with
  | nil => rfl
  | cons p ps ih => rw [eraseParts, ih, List.map_cons]

theorem eraseBody_eq_map (ss : List Stat) : eraseBody ss = ss.map Stat.erase := by
  induction ss with
  | nil => rfl
  | cons s ss ih => rw [eraseBody, ih, List.map_cons]

/-! ## Blocks -/

/-- The names that the statement declares in the block that it stands in. -/
def Stat.names : Stat → List String
  | .declare name _ => [name]
  | _ => []

/-- A block around some place: its statements, and the names that it has declared before there. -/
structure Block where
  body : List Stat
  scope : List String := []

/-- The block after a statement in it. -/
def Block.after (B : Block) (s : Stat) : Block := { B with scope := s.names ++ B.scope }

/-! ## Occurrences -/

/-- A name in a tree that stands for a value. -/
structure Occurrence where
  name : String
  /-- The parser has known it as a local variable. -/
  known : Bool
  /-- The blocks around it, the innermost first. -/
  blocks : List Block

/-- The name is known exactly if one of the blocks around it has declared it. -/
def Occurrence.Right (o : Occurrence) : Prop := o.known = o.blocks.any (·.scope.contains o.name)

mutual

/-- The names in an expression between these blocks. -/
def Expr.occurrences (Γ : List Block) : Expr → List Occurrence
  | .name s known => [⟨s, known, Γ⟩]
  | .index object key => object.occurrences Γ ++ key.occurrences Γ
  | .call callee args => callee.occurrences Γ ++ argsOccurrences Γ args
  | .function body => bodyOccurrences ⟨body, []⟩ Γ body
  | .table parts => partsOccurrences Γ parts
  | .negate operand => operand.occurrences Γ
  | .binary _ left right => left.occurrences Γ ++ right.occurrences Γ
  | _ => []

/-- The names in a part between these blocks. -/
def Part.occurrences (Γ : List Block) : Part → List Occurrence
  | .item value => value.occurrences Γ
  | .pair key value => key.occurrences Γ ++ value.occurrences Γ

/-- The names in a statement between these blocks. A variable is not declared yet where its value
stands, and the counter of a loop only in the body. -/
def Stat.occurrences (Γ : List Block) : Stat → List Occurrence
  | .declare _ value => value.occurrences Γ
  | .assign target value => target.occurrences Γ ++ value.occurrences Γ
  | .loop counter start limit step body =>
    start.occurrences Γ ++ (limit.occurrences Γ ++ (step.occurrences Γ ++
      bodyOccurrences ⟨body, [counter]⟩ Γ body))
  | .block body => bodyOccurrences ⟨body, []⟩ Γ body
  | .call callee => callee.occurrences Γ

/-- The names in arguments between these blocks. -/
def argsOccurrences (Γ : List Block) : List Expr → List Occurrence
  | [] => []
  | e :: es => e.occurrences Γ ++ argsOccurrences Γ es

/-- The names in parts between these blocks. -/
def partsOccurrences (Γ : List Block) : List Part → List Occurrence
  | [] => []
  | p :: ps => p.occurrences Γ ++ partsOccurrences Γ ps

/-- The names in the statements that are left of a block between these blocks. -/
def bodyOccurrences (B : Block) (Γ : List Block) : List Stat → List Occurrence
  | [] => []
  | s :: ss => s.occurrences (B :: Γ) ++ bodyOccurrences (B.after s) Γ ss

end

/-- **The names in a chunk.** -/
def occurrences (tree : List Stat) : List Occurrence := bodyOccurrences ⟨tree, []⟩ [] tree

/-! ## Scopes -/

/-- Some scope has the name. -/
def declares (Γ : List (List String)) (name : String) : Bool := Γ.any (·.contains name)

theorem right_iff {o : Occurrence} :
    o.Right ↔ o.known = declares (o.blocks.map Block.scope) o.name := by
  unfold Occurrence.Right declares
  rw [List.any_map]
  rfl

/-- A scope after some statements. -/
def scopeAfter (scope : List String) (ss : List Stat) : List String :=
  ss.foldl (fun scope s => s.names ++ scope) scope

mutual

/-- The notes of the expression are right between these scopes. -/
def Expr.Resolved (Γ : List (List String)) : Expr → Prop
  | .name s known => known = declares Γ s
  | .index object key => object.Resolved Γ ∧ key.Resolved Γ
  | .call callee args => callee.Resolved Γ ∧ ArgsResolved Γ args
  | .function body => BodyResolved [] Γ body
  | .table parts => PartsResolved Γ parts
  | .negate operand => operand.Resolved Γ
  | .binary _ left right => left.Resolved Γ ∧ right.Resolved Γ
  | _ => True

/-- The notes of the part are right between these scopes. -/
def Part.Resolved (Γ : List (List String)) : Part → Prop
  | .item value => value.Resolved Γ
  | .pair key value => key.Resolved Γ ∧ value.Resolved Γ

/-- The notes of the statement are right between these scopes. -/
def Stat.Resolved (Γ : List (List String)) : Stat → Prop
  | .declare _ value => value.Resolved Γ
  | .assign target value => target.Resolved Γ ∧ value.Resolved Γ
  | .loop counter start limit step body =>
    start.Resolved Γ ∧ limit.Resolved Γ ∧ step.Resolved Γ ∧ BodyResolved [counter] Γ body
  | .block body => BodyResolved [] Γ body
  | .call callee => callee.Resolved Γ

/-- The notes of the arguments are right between these scopes. -/
def ArgsResolved (Γ : List (List String)) : List Expr → Prop
  | [] => True
  | e :: es => e.Resolved Γ ∧ ArgsResolved Γ es

/-- The notes of the parts are right between these scopes. -/
def PartsResolved (Γ : List (List String)) : List Part → Prop
  | [] => True
  | p :: ps => p.Resolved Γ ∧ PartsResolved Γ ps

/-- The notes of the statements are right in a block with this scope between these scopes. -/
def BodyResolved (scope : List String) (Γ : List (List String)) : List Stat → Prop
  | [] => True
  | s :: ss => s.Resolved (scope :: Γ) ∧ BodyResolved (s.names ++ scope) Γ ss

end

section

variable {Γ : List (List String)} {scope : List String}

theorem argsResolved_iff {es : List Expr} : ArgsResolved Γ es ↔ ∀ e ∈ es, e.Resolved Γ := by
  induction es with
  | nil => simp [ArgsResolved]
  | cons e es ih => rw [ArgsResolved, ih, List.forall_mem_cons]

theorem partsResolved_iff {ps : List Part} : PartsResolved Γ ps ↔ ∀ p ∈ ps, p.Resolved Γ := by
  induction ps with
  | nil => simp [PartsResolved]
  | cons p ps ih => rw [PartsResolved, ih, List.forall_mem_cons]

theorem scopeAfter_append (scope : List String) (ss ss' : List Stat) :
    scopeAfter scope (ss ++ ss') = scopeAfter (scopeAfter scope ss) ss' := List.foldl_append

theorem bodyResolved_append {ss ss' : List Stat} : BodyResolved scope Γ (ss ++ ss') ↔
    BodyResolved scope Γ ss ∧ BodyResolved (scopeAfter scope ss) Γ ss' := by
  induction ss generalizing scope with
  | nil => simp [BodyResolved, scopeAfter]
  | cons s ss ih =>
    rw [List.cons_append, BodyResolved, BodyResolved, ih, and_assoc]
    rfl

end

/-! ## Notes that are right -/

mutual

theorem right_of_exprResolved (Γ : List Block) : (e : Expr) → e.Resolved (Γ.map Block.scope) →
    ∀ o ∈ e.occurrences Γ, o.Right
  | .name _ _, h => List.forall_mem_singleton.2 (right_iff.2 h)
  | .index object key, h => List.forall_mem_append.2
    ⟨right_of_exprResolved Γ object h.1, right_of_exprResolved Γ key h.2⟩
  | .call callee args, h => List.forall_mem_append.2
    ⟨right_of_exprResolved Γ callee h.1, right_of_argsResolved Γ args h.2⟩
  | .function body, h => right_of_bodyResolved ⟨body, []⟩ Γ body h
  | .table parts, h => right_of_partsResolved Γ parts h
  | .negate operand, h => right_of_exprResolved Γ operand h
  | .binary _ left right, h => List.forall_mem_append.2
    ⟨right_of_exprResolved Γ left h.1, right_of_exprResolved Γ right h.2⟩
  | .nil, _ => List.forall_mem_nil _
  | .boolean _, _ => List.forall_mem_nil _
  | .number _, _ => List.forall_mem_nil _
  | .string _, _ => List.forall_mem_nil _

theorem right_of_partResolved (Γ : List Block) : (p : Part) → p.Resolved (Γ.map Block.scope) →
    ∀ o ∈ p.occurrences Γ, o.Right
  | .item value, h => right_of_exprResolved Γ value h
  | .pair key value, h => List.forall_mem_append.2
    ⟨right_of_exprResolved Γ key h.1, right_of_exprResolved Γ value h.2⟩

theorem right_of_statResolved (Γ : List Block) : (s : Stat) → s.Resolved (Γ.map Block.scope) →
    ∀ o ∈ s.occurrences Γ, o.Right
  | .declare _ value, h => right_of_exprResolved Γ value h
  | .assign target value, h => List.forall_mem_append.2
    ⟨right_of_exprResolved Γ target h.1, right_of_exprResolved Γ value h.2⟩
  | .loop counter start limit step body, h => List.forall_mem_append.2
    ⟨right_of_exprResolved Γ start h.1, List.forall_mem_append.2
      ⟨right_of_exprResolved Γ limit h.2.1, List.forall_mem_append.2
        ⟨right_of_exprResolved Γ step h.2.2.1,
          right_of_bodyResolved ⟨body, [counter]⟩ Γ body h.2.2.2⟩⟩⟩
  | .block body, h => right_of_bodyResolved ⟨body, []⟩ Γ body h
  | .call callee, h => right_of_exprResolved Γ callee h

theorem right_of_argsResolved (Γ : List Block) : (es : List Expr) →
    ArgsResolved (Γ.map Block.scope) es → ∀ o ∈ argsOccurrences Γ es, o.Right
  | [], _ => List.forall_mem_nil _
  | e :: es, h => List.forall_mem_append.2
    ⟨right_of_exprResolved Γ e h.1, right_of_argsResolved Γ es h.2⟩

theorem right_of_partsResolved (Γ : List Block) : (ps : List Part) →
    PartsResolved (Γ.map Block.scope) ps → ∀ o ∈ partsOccurrences Γ ps, o.Right
  | [], _ => List.forall_mem_nil _
  | p :: ps, h => List.forall_mem_append.2
    ⟨right_of_partResolved Γ p h.1, right_of_partsResolved Γ ps h.2⟩

theorem right_of_bodyResolved (B : Block) (Γ : List Block) : (ss : List Stat) →
    BodyResolved B.scope (Γ.map Block.scope) ss → ∀ o ∈ bodyOccurrences B Γ ss, o.Right
  | [], _ => List.forall_mem_nil _
  | s :: ss, h => List.forall_mem_append.2
    ⟨right_of_statResolved (B :: Γ) s h.1, right_of_bodyResolved (B.after s) Γ ss h.2⟩

end

/-- **The notes of a chunk that is resolved are right.** -/
theorem right_of_resolved {tree : List Stat} (h : BodyResolved [] [] tree) :
    ∀ o ∈ occurrences tree, o.Right := right_of_bodyResolved ⟨tree, []⟩ [] tree h

end LuaGraph.Chunk.Noted
