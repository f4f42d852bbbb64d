import LuaGraph.Proofs.Chunk.Boundaries
import LuaGraph.Proofs.RoundTrip

/-!
# Names as keys

A key that is a string is written bare if it is a name (`is_identifier`), else in brackets. Whether
it is one is decided by the characters and a list of words when it is written, and by how a text is
cut into pieces (`tokenize`) when it is read. Both come to the same: a string is a name exactly if
it is, as a text of its own, cut into this one name (`IsNameToken`).

`Begins text ts rest` says that a text is cut into the tokens `ts` and what `rest` is cut into,
whatever follows.

Headline: **`isName_iff_isNameToken`**, for the keys of tables, of slots and of the environment. Of
the keys of the environment `write_binding` brackets two though they are names
(`brackets_environment`).
-/

namespace LuaGraph

open Chunk

/-! ## Name tokens -/

namespace Chunk

/-- The string is cut into a single token, the name that it is. -/
def IsNameToken (s : String) : Prop := kinds (lex s) = .ok [.name s]

instance (s : String) : Decidable (IsNameToken s) := inferInstanceAs (Decidable (_ = _))

/-- The token of a piece is that of the scan. -/
theorem eq_ok_of_map {scan : Scan Token} {t : Token} {n : Nat}
    (h : scan.map (fun p => (some p.1, p.2)) = .ok (some t, n)) : scan = .ok (t, n) := by
  cases scan with
  | error e => cases h
  | ok p =>
    cases h
    rfl

/-- What a number is read as is no name. -/
theorem scanNumber_ne_name {cs : List Char} {s : String} {n : Nat} :
    scanNumber cs ≠ .ok (.name s, n) := by
  have hhex (ds : List Char) : scanHex ds ≠ .ok (.name s, n) := by
    unfold scanHex
    dsimp only
    split <;> simp
  unfold scanNumber
  split
  · exact hhex _
  · exact hhex _
  · unfold scanDecimal
    dsimp only
    split
    · simp
    split
    · simp
    split <;> simp

/-- What is read between quotes is no name. -/
theorem scanString_ne_name {quote : Char} {cs : List Char} {s : String} {n : Nat} :
    scanString quote cs ≠ .ok (.name s, n) := by
  unfold scanString
  split
  · simp
  split <;> simp

/-- Neither a mark nor a long string is a name. -/
theorem scanMark_ne_name {c : Char} {cs : List Char} {s : String} {n : Nat} :
    scanMark c cs ≠ .ok (.name s, n) := by
  unfold scanMark
  split
  · rename_i level _
    cases scanLong level (c :: cs) <;> simp [Except.map]
  split <;> simp

/-- **A piece that is a name is one.** -/
theorem isName_of_scanPiece {c : Char} {cs : List Char} {s : String} {n : Nat}
    (h : scanPiece c cs = .ok (some (.name s), n)) : Text.Name.isName s = true := by
  unfold scanPiece at h
  dsimp only at h
  split at h
  · cases h
  split at h
  · cases hcomment : ((scanComment (cs.drop 1)).shift.shift) with
    | error e =>
      rw [hcomment] at h
      cases h
    | ok p =>
      rw [hcomment] at h
      cases h
  split at h
  · rename_i hstart
    have hword : Text.Name.isWord ((c :: cs).takeWhile Text.Name.isPart) = true := by
      rw [List.takeWhile_cons_of_pos (isPart_of_isStart hstart), Text.Name.isWord, hstart,
        Bool.true_and]
      exact List.all_takeWhile
    have htoken := eq_ok_of_map h
    unfold scanWord at htoken
    dsimp only at htoken
    split at htoken
    · cases htoken
    · rename_i hkeyword
      cases htoken
      rw [Text.Name.isName, String.toList_ofList, hword, Bool.true_and, Bool.not_eq_true']
      exact Bool.eq_false_iff.2 hkeyword
  split at h
  · exact absurd (eq_ok_of_map h) scanNumber_ne_name
  split at h
  · exact absurd (eq_ok_of_map h) scanString_ne_name
  · exact absurd (eq_ok_of_map h) scanMark_ne_name

/-- Every name among the tokens of a text is one. -/
theorem isName_of_lexFrom {p : Position} {done : Array Lexeme} {cs : List Char} {x : Lexemes}
    (h : lexFrom p done cs = .ok x)
    (hdone : ∀ l ∈ done, ∀ s, l.token = .name s → Text.Name.isName s = true) :
    ∀ l ∈ x.lexemes, ∀ s, l.token = .name s → Text.Name.isName s = true := by
  fun_induction lexFrom p done cs with
  | case1 p done =>
    cases h
    simpa using hdone
  | case2 => cases h
  | case3 p done c cs token? n hc done' ih =>
    refine ih h fun l hl s hs => ?_
    cases token? with
    | none => exact hdone l hl s hs
    | some token =>
      rcases Array.mem_push.1 hl with hl | rfl
      · exact hdone l hl s hs
      · cases hs
        exact isName_of_scanPiece hc

theorem isName_of_isNameToken {s : String} (h : IsNameToken s) : Text.Name.isName s = true := by
  unfold IsNameToken at h
  cases hlex : lex s with
  | error e =>
    rw [hlex] at h
    cases h
  | ok x =>
    rw [hlex] at h
    have htokens : x.lexemes.map Lexeme.token = [.name s] := Except.ok.inj h
    obtain ⟨l, hl, hs⟩ := List.mem_map.1 (htokens ▸ List.mem_singleton_self (Token.name s))
    exact isName_of_lexFrom hlex (by simp) l hl s hs

/-- **A name is read as itself**, wherever it stands, if what follows cannot belong to it. -/
theorem lexFrom_name {s : String} (h : Text.Name.isName s = true) (p : Position)
    (done : Array Lexeme) {rest : List Char}
    (hr : ∀ c ∈ rest.head?, Text.Name.isPart c = false) :
    lexFrom p done (s.toList ++ rest) =
      lexFrom (p.after s.toList) (done.push ⟨.name s, p⟩) rest := by
  obtain ⟨cs, rfl⟩ : ∃ cs, s = String.ofList cs := ⟨s.toList, String.ofList_toList.symm⟩
  simp only [Text.Name.isName, Bool.and_eq_true, Bool.not_eq_true', String.toList_ofList] at h
  rw [String.toList_ofList]
  cases cs with
  | nil => cases h.1
  | cons c cs =>
    have hpiece := scanPiece_word h.1 hr
    rw [wordToken, h.2] at hpiece
    exact lexFrom_piece hpiece p done

theorem isNameToken_iff {s : String} : IsNameToken s ↔ Text.Name.isName s = true := by
  refine ⟨isName_of_isNameToken, fun h => ?_⟩
  have hend : ∀ c ∈ ([] : List Char).head?, Text.Name.isPart c = false := by simp
  have hlex := lexFrom_name h {} #[] hend
  rw [List.append_nil] at hlex
  unfold IsNameToken lex
  rw [hlex, lexFrom]
  rfl

/-! ## Beginnings -/

/-- The text is cut into the tokens and then into what the rest is cut into, whatever follows. -/
def Begins (text : String) (ts : List Token) (rest : String) : Prop :=
  ∀ more us, Spells (rest.toList ++ more) us → Spells (text.toList ++ more) (ts ++ us)

theorem begins_of_reads {first rest : String} {ts : List Token}
    (h : ∀ more, Reads first.toList ts (rest.toList ++ more)) : Begins (first ++ rest) ts rest := by
  intro more us hus
  rw [String.toList_append, List.append_assoc]
  exact h more us hus

/-- The tokens of a string in brackets. -/
def bracketed (s : String) : List Token :=
  [.mark .openBracket, .string s, .mark .closeBracket]

end Chunk

/-! ## Keys -/

/-- The name stands for something else in a text with so many slots: for the environment, or for
the table of the slots. -/
def Document.Reserved (slots : Nat) (s : String) : Prop :=
  s = "_ENV" ∨ 0 < slots ∧ s = Term.slotTable

instance (slots : Nat) (s : String) : Decidable (Document.Reserved slots s) :=
  inferInstanceAs (Decidable (_ ∨ _))

section

variable {s : String} (layout : Layout) (v : Term) (hs : Text.Name.isName s = true)
  (hns : ¬Text.Name.isName s = true)

include hs in
theorem bareName?_of_isName : (Term.atom (.string s)).bareName? = some s := if_pos hs

include hns in
theorem bareName?_of_not_isName : (Term.atom (.string s)).bareName? = none := if_neg hns

theorem reads_bracketedString (s : String) (rest : List Char) :
    Reads ("[" ++ Text.Quoted.literal s ++ "]").toList (bracketed s) rest :=
  reads_bracketed (opens_atom (.string s)) (reads_atom (.string s)) rest

include hs in
theorem begins_fieldText_bare (level : Nat) :
    Begins (Term.fieldText layout level (.pair (.atom (.string s)) v)) [.name s]
      (" = " ++ v.text layout level) := by
  rw [Term.fieldText, bareName?_of_isName hs, String.append_assoc]
  exact begins_of_reads fun more => reads_name hs (isPart_equals _ more)

include hns in
theorem begins_fieldText_bracketed (level : Nat) :
    Begins (Term.fieldText layout level (.pair (.atom (.string s)) v)) (bracketed s)
      (" = " ++ v.text layout level) := by
  rw [Term.fieldText, bareName?_of_not_isName hns, String.append_assoc]
  exact begins_of_reads fun more => reads_bracketedString s _

/-- What is assigned to, up to the end of the line. -/
theorem begins_line {target : String} {ts : List Token}
    (h : ∀ more, Reads target.toList ts ((" = " ++ v.text layout 0).toList ++ more)) :
    Begins (target ++ " = " ++ v.text layout 0 ++ "\n") ts (" = " ++ v.text layout 0 ++ "\n") := by
  have htext : target ++ " = " ++ v.text layout 0 ++ "\n" =
      target ++ (" = " ++ v.text layout 0 ++ "\n") := by
    simp only [String.append_assoc]
  rw [htext]
  refine begins_of_reads fun more => ?_
  rw [String.toList_append, List.append_assoc]
  exact h _

/-- A key after a slot, up to the end of the line. -/
theorem begins_fill {slot : Nat} (hslot : slot < 2 ^ 63) {key : String} {ts : List Token}
    (h : ∀ more, Reads key.toList ts ((" = " ++ v.text layout 0).toList ++ more)) :
    Begins (Term.slotText slot ++ key ++ " = " ++ v.text layout 0 ++ "\n")
      (Term.slotTokens slot ++ ts) (" = " ++ v.text layout 0 ++ "\n") := by
  refine begins_line layout v fun more => ?_
  rw [String.toList_append]
  exact (reads_slot hslot _).append (h more)

include hs in
theorem begins_fill_bare {slot : Nat} (hslot : slot < 2 ^ 63) :
    Begins (Fill.text layout ⟨slot, .atom (.string s), v⟩)
      (Term.slotTokens slot ++ [.mark .dot, .name s]) (" = " ++ v.text layout 0 ++ "\n") := by
  rw [Fill.text, bareName?_of_isName hs]
  exact begins_fill layout v hslot fun more => reads_dotName hs (isPart_equals _ more)

include hns in
theorem begins_fill_bracketed {slot : Nat} (hslot : slot < 2 ^ 63) :
    Begins (Fill.text layout ⟨slot, .atom (.string s), v⟩)
      (Term.slotTokens slot ++ bracketed s) (" = " ++ v.text layout 0 ++ "\n") := by
  rw [Fill.text, bareName?_of_not_isName hns]
  exact begins_fill layout v hslot fun more => reads_bracketedString s _

include hs in
theorem begins_binding_bare {slots : Nat} (hfree : ¬Document.Reserved slots s) :
    Begins (Binding.text layout slots ⟨.atom (.string s), v⟩) [.name s]
      (" = " ++ v.text layout 0 ++ "\n") := by
  have hglobal : Binding.globalName? slots ⟨.atom (.string s), v⟩ = some s := by
    unfold Binding.globalName?
    rw [bareName?_of_isName hs]
    exact if_neg hfree
  rw [Binding.text, hglobal]
  exact begins_line layout v fun more => reads_name hs (isPart_equals _ more)

theorem begins_binding_bracketed {slots : Nat}
    (h : ¬Text.Name.isName s = true ∨ Document.Reserved slots s) :
    Begins (Binding.text layout slots ⟨.atom (.string s), v⟩) (.name "_ENV" :: bracketed s)
      (" = " ++ v.text layout 0 ++ "\n") := by
  have hglobal : Binding.globalName? slots ⟨.atom (.string s), v⟩ = none := by
    unfold Binding.globalName?
    by_cases hs : Text.Name.isName s = true
    · rw [bareName?_of_isName hs]
      exact if_pos (h.resolve_left (not_not_intro hs))
    · rw [bareName?_of_not_isName hs]
  rw [Binding.text, hglobal]
  exact begins_line layout v fun more =>
    reads_environmentKey (opens_atom (.string s)) (reads_atom (.string s)) _

end

/-- **Bare names are exactly name tokens.** A string is a name exactly if it is cut into the one
name that it is. Then it is read as this name wherever it stands, if what follows cannot belong to
it; so it is where it is written as a key of a table, of a table in a slot, or of the environment. A
key is bracketed only if it is no such string, or if it stands for something else as the name of a
variable. -/
theorem isName_iff_isNameToken (s : String) :
    (Text.Name.isName s = true ↔ IsNameToken s) ∧
    (IsNameToken s → ∀ (p : Position) (done : Array Lexeme) (rest : List Char),
      (∀ c ∈ rest.head?, Text.Name.isPart c = false) →
      lexFrom p done (s.toList ++ rest) =
        lexFrom (p.after s.toList) (done.push ⟨.name s, p⟩) rest) ∧
    (∀ (layout : Layout) (level : Nat) (v : Term),
      let field := Term.fieldText layout level (.pair (.atom (.string s)) v)
      let value := " = " ++ v.text layout level
      (IsNameToken s → Begins field [.name s] value) ∧
        (¬IsNameToken s → Begins field (bracketed s) value)) ∧
    (∀ (layout : Layout) (slot : Nat) (v : Term), slot < 2 ^ 63 →
      let fill := Fill.text layout ⟨slot, .atom (.string s), v⟩
      let value := " = " ++ v.text layout 0 ++ "\n"
      (IsNameToken s → Begins fill (Term.slotTokens slot ++ [.mark .dot, .name s]) value) ∧
        (¬IsNameToken s → Begins fill (Term.slotTokens slot ++ bracketed s) value)) ∧
    ∀ (layout : Layout) (slots : Nat) (v : Term),
      let binding := Binding.text layout slots ⟨.atom (.string s), v⟩
      let value := " = " ++ v.text layout 0 ++ "\n"
      (IsNameToken s ∧ ¬Document.Reserved slots s → Begins binding [.name s] value) ∧
        (¬IsNameToken s ∨ Document.Reserved slots s →
          Begins binding (.name "_ENV" :: bracketed s) value) := by
  rw [isNameToken_iff]
  refine ⟨Iff.rfl, fun hs p done rest hr => lexFrom_name hs p done hr, fun layout level v => ?_,
    fun layout slot v hslot => ?_, fun layout slots v => ?_⟩
  · exact ⟨fun hs => begins_fieldText_bare layout v hs level,
      fun hns => begins_fieldText_bracketed layout v hns level⟩
  · exact ⟨fun hs => begins_fill_bare layout v hs hslot,
      fun hns => begins_fill_bracketed layout v hns hslot⟩
  · exact ⟨fun ⟨hs, hfree⟩ => begins_binding_bare layout v hs hfree,
      begins_binding_bracketed layout v⟩

/-- A word that is no name, and the name that has one letter more. -/
theorem isName_iff_isNameToken_lengthened :
    ¬IsNameToken "end" ∧ IsNameToken "ends" ∧
    lexFrom {} #[] ("ends".toList ++ ['.']) =
      lexFrom ⟨1, 5⟩ #[⟨.name "ends", {}⟩] ['.'] ∧
    Begins (Fill.text .compact ⟨1, .atom (.string "end"), .atom .nil⟩)
      (Term.slotTokens 1 ++ bracketed "end") " = nil\n" ∧
    Begins (Fill.text .compact ⟨1, .atom (.string "ends"), .atom .nil⟩)
      (Term.slotTokens 1 ++ [.mark .dot, .name "ends"]) " = nil\n" ∧
    Begins (Binding.text .compact 1 ⟨.atom (.string "ends"), .atom .nil⟩) [.name "ends"]
      " = nil\n" := by
  have hword : ¬IsNameToken "end" := by decide +kernel
  have hname : IsNameToken "ends" := by decide +kernel
  have hslot : 1 < 2 ^ 63 := by decide
  have hfree : ¬Document.Reserved 1 "ends" := by decide
  have hdot : ∀ c ∈ ['.'].head?, Text.Name.isPart c = false := by
    rintro _ ⟨⟩
    rfl
  obtain ⟨-, -, -, hfill, -⟩ := isName_iff_isNameToken "end"
  obtain ⟨-, hreads, -, hfill', hbinding⟩ := isName_iff_isNameToken "ends"
  exact ⟨hword, hname, hreads hname {} #[] ['.'] hdot,
    (hfill .compact 1 (.atom .nil) hslot).2 hword, (hfill' .compact 1 (.atom .nil) hslot).1 hname,
    (hbinding .compact 1 (.atom .nil)).1 ⟨hname, hfree⟩⟩

/-- A binding to the name of the environment. -/
def ambient : Heap where
  tables := #[⟨[(.string "_ENV", .number (.integer 1))], 0⟩]

/-- **A key of the environment may be bracketed though it is a name**: with its name, the
environment itself would be assigned to. -/
theorem brackets_environment :
    IsNameToken "_ENV" ∧
    ((Save.save (Save.parsing {}) ambient {} 0 none).run ()).1 = .ok "_ENV[\"_ENV\"] = 1\n" ∧
    kinds (lex "_ENV[\"_ENV\"] = 1\n") =
      .ok (.name "_ENV" :: bracketed "_ENV" ++ [.mark .equals, .integer 1]) := by
  decide +kernel

end LuaGraph
