import LuaGraph.Proofs.Chunk.Boundaries
import LuaGraph.Proofs.Chunk.Wording
import LuaGraph.Proofs.Inline

/-!
# Texts of a single line

An inline text (`to_string_inline_with_options`) has no line break of its own: fields are set apart
by commas and blanks, a newline in a string is written as an escape, and no number or name holds
one. The label of a function or of userdata is the exception. It stands in a comment as it is
(`long_comment`), so a newline in it breaks the line.

Result: **`inline?_singleLine_iff`**.
-/

namespace LuaGraph

open Text

/-! ## Numbers -/

namespace Chunk

theorem newline_not_mem_of_isDigit {cs : List Char}
    (h : ∀ c ∈ cs, Decimal.isDigit c = true ∨ c = '.') : '\n' ∉ cs := by
  intro hmem
  have hnot : ¬(Decimal.isDigit '\n' = true ∨ '\n' = '.') := by decide
  exact hnot (h _ hmem)

theorem newline_not_mem_digitsOf (n : Nat) : '\n' ∉ Decimal.digitsOf n :=
  newline_not_mem_of_isDigit fun _ hc => .inl (Decimal.isDigit_of_mem_digitsOf hc)

theorem newline_not_mem_exponentText (power : Int) : '\n' ∉ Decimal.exponentText power := by
  have hdigits := newline_not_mem_digitsOf power.natAbs
  unfold Decimal.exponentText
  split <;> simp [hdigits]

theorem newline_not_mem_of_isLiteral {cs : List Char} (h : IsLiteral cs) : '\n' ∉ cs := by
  obtain ⟨c, plain, tail, rfl, hc, hplain, htail⟩ := h
  have hfirst : '\n' ∉ c :: plain :=
    newline_not_mem_of_isDigit (List.forall_mem_cons.2 ⟨.inl hc, hplain⟩)
  refine List.not_mem_append hfirst ?_
  rcases htail with rfl | ⟨power, rfl⟩
  · exact List.not_mem_nil
  · exact newline_not_mem_exponentText power

end Chunk

open Chunk

theorem Number.newline_not_mem_numeral (n : Number) : '\n' ∉ n.numeral.toList := by
  have hsigned {b : Prop} [Decidable b] {cs : List Char} (h : '\n' ∉ cs) :
      '\n' ∉ (String.ofList (if b then '-' :: cs else cs)).toList := by
    rw [String.toList_ofList]
    split
    · exact List.not_mem_cons_of_ne_of_not_mem (by decide) h
    · exact h
  unfold numeral
  split
  · split
    · decide
    · exact hsigned (newline_not_mem_digitsOf _)
  · split
    · decide
    split
    · split <;> decide
    · exact hsigned (newline_not_mem_of_isLiteral (isLiteral_text _).1)

/-! ## Atoms -/

/-- A comment has the newlines of its text and no others. -/
theorem newline_mem_comment_iff (shown : String) :
    '\n' ∈ (LongBracket.comment shown).toList ↔ '\n' ∈ shown.toList := by
  have hequals (n : Nat) : '\n' ∉ List.replicate n '=' := fun h =>
    absurd (List.eq_of_mem_replicate h) (by decide)
  simp [LongBracket.comment, LongBracket.enclose, LongBracket.opening, LongBracket.closing,
    hequals]

/-- Of the atoms only those that show a label can have a newline. -/
theorem Atom.newline_mem_text_iff (a : Atom) :
    '\n' ∈ a.text.toList ↔ ∃ shown, a = .remark shown ∧ '\n' ∈ shown.toList := by
  cases a with
  | nil => simp [text]
  | boolean b => cases b <;> simp [text]
  | number n => simpa [text] using n.newline_not_mem_numeral
  | string s => simpa [text] using newline_not_mem_literal s
  | remark shown => simp [text, newline_mem_comment_iff]

/-! ## Values -/

/-- The label of a function or of userdata. -/
def Value.label? : Value → Option String
  | function h => some h.label
  | userdata h => some h.label
  | _ => none

/-- The value has a label with a newline. -/
def Value.BreaksLine (v : Value) : Prop := ∃ label ∈ v.label?, '\n' ∈ label.toList

/-- A value that is no table breaks the line exactly if its label does. -/
theorem Value.newline_mem_text_iff {v : Value} {a : Atom} (h : v.view = .inl a) :
    '\n' ∈ a.text.toList ↔ v.BreaksLine := by
  rw [Atom.newline_mem_text_iff]
  unfold BreaksLine
  cases v with
  | table t => cases h
  | function f | userdata f =>
    cases h
    simp [label?, display]
  | _ =>
    cases h
    simp [label?]

/-- The value is met in the other one: it is that value, or it is met in a key or value of one of
its entries whose key is no handle. -/
inductive Heap.Shows (H : Heap) : Value → Value → Prop
  | self (v : Value) : Shows H v v
  | key {t : TableId} {e : Entry} {u : Value} : e ∈ H.writable t → Shows H e.1 u →
      Shows H (.table t) u
  | value {t : TableId} {e : Entry} {u : Value} : e ∈ H.writable t → Shows H e.2 u →
      Shows H (.table t) u

variable {H : Heap}

/-- What is met in a value that is no table is that value. -/
theorem Heap.Shows.eq_of_view {v u : Value} {a : Atom} (h : H.Shows v u) (hv : v.view = .inl a) :
    u = v := by
  cases h with
  | self => rfl
  | key => cases hv
  | value => cases hv

/-- What is met in a table besides itself is met in its entries. -/
theorem Heap.shows_table_iff {t : TableId} {u : Value} :
    H.Shows (.table t) u ↔ u = .table t ∨ ∃ e ∈ H.writable t, H.Shows e.1 u ∨ H.Shows e.2 u := by
  constructor
  · intro h
    cases h with
    | self => exact .inl rfl
    | key he h => exact .inr ⟨_, he, .inl h⟩
    | value he h => exact .inr ⟨_, he, .inr h⟩
  · rintro (rfl | ⟨e, he, h | h⟩)
    · exact .self _
    · exact .key he h
    · exact .value he h

/-! ## Terms -/

namespace Term

/-- Texts with commas between them are on one line if each of them is. -/
theorem newline_mem_intercalate_iff (ss : List String) :
    '\n' ∈ (", ".intercalate ss).toList ↔ ∃ s ∈ ss, '\n' ∈ s.toList := by
  cases ss with
  | nil => simp
  | cons s ss =>
    rw [toList_intercalate_cons]
    simp

/-- The fields of a table are on one line if they are. -/
theorem newline_mem_table_iff (fs : List Field) (level : Nat) :
    '\n' ∈ ((table fs).text .compact level).toList ↔
      ∃ f ∈ fs, '\n' ∈ (fieldText .compact (level + 1) f).toList := by
  rw [Sketch.text_table, String.toList_append, String.toList_append, List.mem_append,
    List.mem_append, newline_mem_intercalate_iff]
  simp

/-- A name has no newline. -/
theorem newline_not_mem_of_isName {name : String} (h : Name.isName name = true) :
    '\n' ∉ name.toList := by
  intro hmem
  unfold Name.isName at h
  cases hcs : name.toList with
  | nil => simp [hcs] at hmem
  | cons c cs =>
    rw [hcs] at h hmem
    obtain ⟨⟨hc, hcs⟩, -⟩ : (Name.isStart c = true ∧ ∀ d ∈ cs, Name.isPart d = true) ∧ _ := by
      simpa [Name.isWord] using h
    have hpart : Name.isPart '\n' = true := by
      rcases List.mem_cons.1 hmem with rfl | hmem
      · exact isPart_of_isStart hc
      · exact hcs _ hmem
    revert hpart
    decide

/-- A pair is on one line if both of its parts are, since a key that is written as a name has no
more newlines than its text. -/
theorem newline_not_mem_fieldText_iff (k v : Term) (level : Nat) :
    '\n' ∉ (fieldText .compact level (.pair k v)).toList ↔
      '\n' ∉ (k.text .compact level).toList ∧ '\n' ∉ (v.text .compact level).toList := by
  unfold fieldText
  cases hk : k.bareName? with
  | none => simp
  | some name =>
    obtain rfl := eq_of_bareName? hk
    have hname := newline_not_mem_of_isName (isName_of_bareName? hk)
    have hliteral := newline_not_mem_literal name
    simp [hname, text, Atom.text, hliteral]

end Term

open Sketch in
/-- **A text that shows all tables is on one line exactly if no label in it breaks the line.** -/
theorem newline_not_mem_plainText_iff (h : H.WellFormed) {depth level : Nat} {v : Value}
    (hnests : H.NestsWithin depth v) :
    '\n' ∉ (plainText H depth level v).toList ↔ ∀ u, H.Shows v u → ¬u.BreaksLine := by
  induction depth, v using termOf_induction (fun _ => none) generalizing level with
  | atom depth v a hv =>
    rw [plainText, termOf_atom hv, Term.text, Value.newline_mem_text_iff hv]
    constructor
    · intro hbreaks u hu
      rwa [hu.eq_of_view hv]
    · exact fun hbreaks => hbreaks v (.self v)
  | slot depth t i hs => cases hs
  | tooDeep t => exact hnests.elim
  | table depth t hs ih =>
    have hindex (i : Nat) :
        '\n' ∉ ((termOf H (fun _ => none) depth (.index i)).text .compact (level + 1)).toList := by
      rw [termOf_index]
      exact Number.newline_not_mem_numeral _
    have hfields := forall_fieldsOf_iff (l := H.listing t)
      (P := fun x => '\n' ∉ (x.text .compact (level + 1)).toList)
      (Q := fun f => '\n' ∉ (Term.fieldText .compact (level + 1) f).toList)
      hindex (fun _ => Iff.rfl) fun k v => Term.newline_not_mem_fieldText_iff k v (level + 1)
    have hself : ¬(Value.table t).BreaksLine := by simp [Value.BreaksLine, Value.label?]
    rw [plainText, termOf_succ hs, Term.newline_mem_table_iff]
    push Not
    rw [hfields]
    constructor
    · intro hentries u hu
      rcases Heap.shows_table_iff.1 hu with rfl | ⟨e, he, hshows⟩
      · exact hself
      obtain ⟨hk, hv⟩ := hentries e ((Heap.perm_pairs h t).mem_iff.2 he)
      obtain ⟨hnestsk, hnestsv⟩ := hnests e he
      rcases hshows with hshows | hshows
      · exact (ih e.1 hnestsk).1 hk u hshows
      · exact (ih e.2 hnestsv).1 hv u hshows
    · intro hall e he
      have he := (Heap.perm_pairs h t).mem_iff.1 he
      obtain ⟨hnestsk, hnestsv⟩ := hnests e he
      exact ⟨(ih e.1 hnestsk).2 fun u hu => hall u (.key he hu),
        (ih e.2 hnestsv).2 fun u hu => hall u (.value he hu)⟩

/-! ## Inline texts -/

namespace Heap

/-- **An inline text is a single line exactly if no label of a function or of userdata that it shows
has a newline**, whatever strings, keys and tables there are in the value, and with all options. -/
theorem inline?_singleLine_iff (h : H.WellFormed) {o : Options} {v : Value} {text : String}
    (hinline : H.inline? o v = some (some text)) :
    '\n' ∉ text.toList ↔ ∀ u, H.Shows v u → ¬u.BreaksLine := by
  obtain ⟨-, -, hnests, -, htext⟩ := ((inline?_eq_some_iff h o v).1 text).1 hinline
  rw [htext o.limits.maxDepth (Nat.le_refl _)]
  exact newline_not_mem_plainText_iff h hnests

/-- A heap with a table that has newlines in a key and in a value, and a function. -/
def noted : Heap where
  tables := #[⟨[(.index 1, .function ⟨0, "f"⟩), (.string "a\nb", .string "\n")], 1⟩]
  handles := 1

theorem inline?_singleLine_noted :
    (noted.WellFormed ∧ noted.inline? .compact (.table 0) =
      some (some "\x7bnil --[[function: f]], [\"a\\nb\"] = \"\\n\"\x7d")) ∧
    ∀ u, noted.Shows (.table 0) u → ¬u.BreaksLine := by
  have hwf : noted.WellFormed := by decide
  have hinline : noted.inline? .compact (.table 0) =
      some (some "\x7bnil --[[function: f]], [\"a\\nb\"] = \"\\n\"\x7d") := by decide +kernel
  exact ⟨⟨hwf, hinline⟩, (inline?_singleLine_iff hwf hinline).1 (by decide)⟩

/-- **The label of a function stands in the text as it is**, with the newline that it has. -/
theorem exists_inline?_of_two_lines :
    empty.inline? .compact (.function ⟨0, "a\nb"⟩) = some (some "nil --[[function: a\nb]]") ∧
    '\n' ∈ "nil --[[function: a\nb]]".toList := by
  constructor <;> decide

end Heap

end LuaGraph
