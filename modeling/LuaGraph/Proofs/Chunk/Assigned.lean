import LuaGraph.Proofs.Chunk.Levels
import LuaGraph.Proofs.Chunk.Literals

/-!
# The text of an assignment

The text of a term after a name and an equals sign is that of a document with one binding. Within
the ceiling for constants it is parsed exactly if there are as many levels as the term is high.

The constants of a term can be read off its text: they are the numbers, the strings and the names,
since every name in it is a key.

Results: `constantsIn_text`, `parse_single_iff`.
-/

namespace LuaGraph

open Chunk

/-! ## Constants in texts -/

/-- The constant that a token of a literal or of a name is. -/
def Chunk.Token.constant? : Token → Option Constant
  | .integer i => some (.integer i)
  | .float x => some (.float x)
  | .string s => some (.string s)
  | .name s => some (.string s)
  | _ => none

/-- The constants in a text: its literals and its names. -/
def Chunk.constantsIn (text : String) : List Constant :=
  match lex text with
  | .ok x => x.lexemes.filterMap fun l => l.token.constant?
  | .error _ => []

theorem Chunk.Constant.constant?_token (c : Constant) : c.token.constant? = some c := by
  cases c <;> rfl

theorem constants_signed (neg : Bool) (ts : List Token) :
    (signed neg ts).filterMap Token.constant? = ts.filterMap Token.constant? := by
  cases neg <;> rfl

theorem Spelling.constants_tokens (w : Spelling) :
    w.tokens.filterMap Token.constant? = w.constants := by
  cases w with
  | literal neg c => simp [tokens, constants, constants_signed, c.constant?_token]
  | operation neg left op right =>
    rw [tokens, parenthesised, List.cons_append, List.filterMap_cons_none rfl,
      List.filterMap_append, constants_signed, List.filterMap_cons_some left.constant?_token,
      List.filterMap_cons_none rfl, List.filterMap_cons_some right.constant?_token]
    rfl

theorem Atom.constants_tokens (a : Atom) : a.tokens.filterMap Token.constant? = a.constants := by
  cases a with
  | number n => rw [tokens, ← tokens_spelling, Spelling.constants_tokens, constants]
  | _ => rfl

mutual

/-- **The constants of a term are those in its tokens**, where it has no slots. -/
theorem Term.constants_tokens (trailing : Bool) : (t : Term) → t.Writable 0 →
    (t.tokens trailing).filterMap Token.constant? = t.constants
  | .atom a, _ => a.constants_tokens
  | .slot _, h => absurd (Nat.le_trans h.1 h.2) (by decide)
  | .tooDeep, h => h.elim
  | .table fs, h => by
    rw [tokens, constants, List.cons_append, List.filterMap_cons_none rfl, List.filterMap_append,
      fieldsConstants_tokens trailing fs h]
    exact List.append_nil _

theorem Term.fieldsConstants_tokens (trailing : Bool) : (fs : List Field) → FieldsWritable 0 fs →
    (fieldsTokens trailing fs).filterMap Token.constant? = fieldsConstants fs
  | [], _ => rfl
  | f :: fs, h => by
    rw [fieldsTokens, List.filterMap_append, fieldConstants_tokens trailing f h.1,
      laterConstants_tokens trailing fs h.2, fieldsConstants]

theorem Term.laterConstants_tokens (trailing : Bool) : (fs : List Field) → FieldsWritable 0 fs →
    (laterTokens trailing fs).filterMap Token.constant? = fieldsConstants fs
  | [], _ => by cases trailing <;> rfl
  | f :: fs, h => by
    rw [laterTokens, List.filterMap_cons_none rfl, List.filterMap_append,
      fieldConstants_tokens trailing f h.1, laterConstants_tokens trailing fs h.2, fieldsConstants]

theorem Term.fieldConstants_tokens (trailing : Bool) : (f : Field) → FieldWritable 0 f →
    (fieldTokens trailing f).filterMap Token.constant? = fieldConstants f
  | .item v, h => constants_tokens trailing v h
  | .pair k v, h => by
    rw [fieldTokens, List.filterMap_append, List.filterMap_cons_none rfl,
      constants_tokens trailing v h.2, fieldConstants]
    congr 1
    cases hk : k.bareName? with
    | some name =>
      rw [eq_of_bareName? hk]
      rfl
    | none =>
      dsimp only
      rw [List.cons_append, List.filterMap_cons_none rfl, List.filterMap_append,
        constants_tokens trailing k h.1]
      exact List.append_nil _

end

theorem constantsIn_text (layout : Layout) {t : Term} (h : t.Writable 0) :
    constantsIn (t.text layout 0) = t.constants := by
  have hends : Ends [] := nofun
  obtain ⟨lexemes, stop, hlex, htokens⟩ :=
    lexFrom_of_spells (reads_term (by decide) layout 0 t h hends).spells {} #[]
  have hlex : lex (t.text layout 0) = .ok ⟨lexemes, stop⟩ := hlex
  rw [constantsIn, hlex, ← Term.constants_tokens layout.trailing t h, ← htokens,
    List.filterMap_map]
  rfl

/-! ## Documents with one binding -/

/-- The document of one binding to a name. -/
def Document.single (name : String) (t : Term) : Document where
  blocks := [[]]
  bindings := [⟨.atom (.string name), t⟩]

section

variable {name : String} {t : Term} {trailing : Bool}

theorem globalName?_single (hname : Text.Name.isName name = true) (hne : name ≠ "_ENV") :
    Binding.globalName? 0 ⟨.atom (.string name), t⟩ = some name := by
  simp [Binding.globalName?, Term.bareName?, Atom.bareName?, hname, hne]

theorem Document.tokens_single (hname : Text.Name.isName name = true) (hne : name ≠ "_ENV") :
    (single name t).tokens trailing = .name name :: .mark .equals :: t.tokens trailing := by
  have hbinding : Binding.tokens trailing 0 ⟨.atom (.string name), t⟩ =
      .name name :: .mark .equals :: t.tokens trailing := by
    rw [Binding.tokens, globalName?_single hname hne]
    rfl
  show [] ++ (Binding.tokens trailing 0 _ ++ []) = _
  rw [hbinding, List.append_nil, List.nil_append]

theorem Document.writable_single (h : t.Writable 0) : (single name t).Writable where
  slots := show 0 < 2 ^ 63 by decide
  fills block hb f hf := by
    obtain rfl := List.mem_singleton.1 hb
    exact absurd hf List.not_mem_nil
  bindings b hb := by
    obtain rfl := List.mem_singleton.1 hb
    exact ⟨trivial, h⟩

theorem Document.within_single {levels : Nat} (h : t.height ≤ levels) :
    (single name t).Within levels where
  preamble hslots := absurd rfl hslots
  blocks hsplit := nomatch hsplit
  fills block hb f hf := by
    obtain rfl := List.mem_singleton.1 hb
    exact absurd hf List.not_mem_nil
  bindings b hb := by
    obtain rfl := List.mem_singleton.1 hb
    exact Nat.max_le.2 ⟨Nat.le_trans (Parse.height_pos t) h, h⟩

/-- One more constant is one more at most. -/
theorem size_cons_le (c : Constant) (cs : List Constant) :
    ((c :: cs).foldl (·.insert ·) (∅ : Constants)).size ≤
      (cs.foldl (·.insert ·) (∅ : Constants)).size + 1 := by
  generalize hset : cs.foldl (·.insert ·) (∅ : Constants) = set
  have : Std.LawfulEqCmp Constant.order := ⟨fun h => Constant.order_eq_iff.1 h⟩
  have hlength : (c :: set.toList).length = set.size + 1 := by
    rw [List.length_cons, Std.TreeSet.length_toList]
  rw [← hlength]
  refine size_le_length fun d hd => ?_
  rcases List.mem_cons.1 hd with rfl | hd
  · exact List.mem_cons_self ..
  · refine List.mem_cons_of_mem c (Std.TreeSet.mem_toList.2 ?_)
    rw [← hset]
    exact mem_foldl_insert.2 (.inl hd)

theorem Document.counted_single {max : Nat}
    (h : (t.constants.foldl (·.insert ·) (∅ : Constants)).size + 1 ≤ max) :
    (single name t).Counted max where
  chunk := by
    have hconstants : (single name t).constants = .string name :: t.constants := by
      show [] ++ ([.string name] ++ t.constants ++ []) = _
      rw [List.append_nil]
      rfl
    rw [hconstants]
    exact Nat.le_trans (size_cons_le _ _) h
  blocks hsplit := nomatch hsplit

/-- The text of a term after a name and an equals sign has the tokens of the document. -/
theorem spells_single (hname : Text.Name.isName name = true) (hne : name ≠ "_ENV")
    (layout : Layout) (h : t.Writable 0) :
    Spells (name ++ " = " ++ t.text layout 0).toList
      ((Document.single name t).tokens layout.trailing) := by
  have hends : Ends [] := nofun
  have hvalue := reads_assigned (reads_term (by decide) layout 0 t h hends)
  rw [Document.tokens_single hname hne, String.append_assoc, String.toList_append]
  exact ((reads_name hname (isPart_equals _ [])).before hvalue).spells

end

/-! ## Parsing -/

namespace Chunk

open Parse

variable {name : String} {t : Term} {limits : Limits}

/-- Where the document is parsed, there are as many levels as its term is high. -/
theorem Parse.height_le_of_chunk {s s' : State} {body : List Stat} {trailing : Bool}
    (hrun : chunk limits s = .ok (body, s')) (hname : Text.Name.isName name = true)
    (hne : name ≠ "_ENV") (h : t.Writable 0)
    (hs : s.tokens = (Document.single name t).tokens trailing)
    (hlocal : s.isLocal name = false)
    (hr : s.Room limits.maxConstants (.string name :: t.constants)) :
    t.height ≤ limits.maxDepth := by
  rw [Document.tokens_single hname hne] at hs
  have hstatements : Succeeds (rounds (statementsRound limits.maxConstants
      (inner limits.maxConstants limits.maxDepth)) []) s :=
    Succeeds.first ⟨(body, s'), hrun⟩
  have hround := hstatements.round.after (run_peek s)
  rw [hs] at hround
  have hroom : s.Room limits.maxConstants ([.string name] ++ t.constants) := hr
  have hsuffixed : suffixed limits.maxConstants (inner limits.maxConstants limits.maxDepth) s =
      .ok (.name name, s.past 1 [.string name]) := run_suffixed_global hs hlocal hne hroom.left
  have hs₁ : (s.past 1 [.string name]).tokens = .mark .equals :: (t.tokens trailing ++ []) := by
    rw [State.tokens_past, hs, List.append_nil]
    rfl
  exact hround.first.assigned_height_le h (by rw [hs]; rfl) hsuffixed rfl hs₁ hr

/-- **The text of an assignment is parsed exactly if there are levels enough**, where there is room
for the constants. -/
theorem parse_single_iff (hname : Text.Name.isName name = true) (hne : name ≠ "_ENV")
    (layout : Layout) (h : t.Writable 0)
    (hc : (t.constants.foldl (·.insert ·) (∅ : Constants)).size + 1 ≤ limits.maxConstants)
    {body : List Stat} : parse limits (name ++ " = " ++ t.text layout 0) = .ok body ↔
      body = (Document.single name t).program ∧ t.height ≤ limits.maxDepth := by
  obtain ⟨lexemes, stop, hlex, htokens⟩ :=
    lexFrom_of_spells (spells_single hname hne layout h) {} #[]
  have hrun (hl : t.height ≤ limits.maxDepth) :
      ∃ s', Parse.chunk limits { lexemes, stop } = .ok ((Document.single name t).program, s') := by
    obtain ⟨s', hs', hrun⟩ := run_document (s := { lexemes, stop }) (Document.writable_single h)
      (Document.within_single hl) (Document.counted_single hc) htokens rfl rfl
    exact ⟨s', run_chunk hrun hs'⟩
  rw [parse_eq_ok_iff]
  constructor
  · rintro ⟨x, s', hlex', hchunk⟩
    cases hlex.symm.trans hlex'
    have hl : t.height ≤ limits.maxDepth := by
      refine height_le_of_chunk hchunk hname hne h htokens ?_ ?_
      · simp [State.isLocal]
      · exact Nat.le_trans (size_cons_le _ _) hc
    obtain ⟨s'', hrun'⟩ := hrun hl
    cases hrun'.symm.trans hchunk
    exact ⟨rfl, hl⟩
  · rintro ⟨rfl, hl⟩
    obtain ⟨s', hrun'⟩ := hrun hl
    exact ⟨⟨lexemes, stop⟩, s', hlex, hrun'⟩

end Chunk

end LuaGraph
