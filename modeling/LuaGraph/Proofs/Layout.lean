import LuaGraph.Proofs.Blocks
import LuaGraph.Proofs.Chunk.Commas
import LuaGraph.Proofs.RoundTrip

/-!
# Layouts

Texts of one document in two layouts (`with_pretty`, `with_indent`) differ in blanks, which are no
tokens, and in the comma after the last field of a table. So they are parsed to the same tree or
both rejected, and nothing that comes after depends on the layout.

Headlines:
* `parse_text_layout`: for the texts of a document.
* **`attempt_layout`**: for the attempts to save bindings, and for what is saved.
-/

namespace LuaGraph

open Chunk

/-! ## Tokens in two layouts -/

section

variable {b : Bool} {rest rest' : List Token}

namespace Chunk.Commas

theorem refl (b : Bool) (ts : List Token) : Commas b ts ts := by
  induction ts generalizing b with
  | nil => exact .nil
  | cons t ts ih => exact .cons t (ih _)

/-- The same tokens before others, if a part of a table may end with the last of them. -/
theorem append {ts : List Token} (hlast : ∀ t ∈ ts.getLast?, t.endsPart = true)
    (hb : ts = [] → b = true) (h : Commas true rest rest') :
    Commas b (ts ++ rest) (ts ++ rest') := by
  induction ts generalizing b with
  | nil => exact hb rfl ▸ h
  | cons t ts ih =>
    refine .cons t (ih (fun u hu => ?_) fun hnil => ?_)
    · exact hlast u (by cases ts <;> simp_all)
    · exact hlast t (by rw [hnil]; rfl)

/-- Where no part may end, none may end in any case. -/
theorem of_tight (h : Commas false rest rest') : Commas b rest rest' := by
  cases h with
  | nil => exact .nil
  | cons t h => exact .cons t h

end Chunk.Commas

theorem endsPart_atom (a : Atom) : a.tokens ≠ [] ∧ ∀ t ∈ a.tokens.getLast?, t.endsPart = true := by
  cases a with
  | number n =>
    rw [Atom.tokens, ← tokens_spelling]
    cases n.spelling with
    | literal neg c =>
      cases neg <;> cases c <;> simp [Spelling.tokens, signed, Constant.token, Token.endsPart]
    | operation neg left op right =>
      rw [Spelling.tokens, parenthesised, List.getLast?_concat]
      simp [Token.endsPart]
  | boolean b => cases b <;> simp [Atom.tokens, Token.endsPart]
  | _ => simp [Atom.tokens, Token.endsPart]

mutual

/-- The tokens of a term. -/
theorem commas_term {n : Nat} {b : Bool} {rest rest' : List Token}
    (hrest : Commas true rest rest') :
    (t : Term) → t.Writable n → Commas b (t.tokens true ++ rest) (t.tokens false ++ rest')
  | .atom a, _ => by
    rw [Term.tokens, Term.tokens]
    exact .append (endsPart_atom a).2 (fun h => absurd h (endsPart_atom a).1) hrest
  | .slot i, _ => by
    rw [Term.tokens, Term.tokens]
    exact .append (by simp [Term.slotTokens, Token.endsPart]) nofun hrest
  | .tooDeep, h => h.elim
  | .table fs, h => by
    rw [Term.tokens, Term.tokens]
    simp only [List.cons_append, List.append_assoc, List.nil_append]
    exact .cons _ (commas_fields hrest fs h)

/-- The tokens of the fields of a table, and of what comes after its closing brace. -/
theorem commas_fields {n : Nat} {rest rest' : List Token} (hrest : Commas true rest rest') :
    (fs : List Field) → Term.FieldsWritable n fs →
      Commas false (Term.fieldsTokens true fs ++ .mark .closeBrace :: rest)
        (Term.fieldsTokens false fs ++ .mark .closeBrace :: rest')
  | [], _ => .cons _ hrest
  | f :: fs, h => by
    rw [Term.fieldsTokens, Term.fieldsTokens, List.append_assoc, List.append_assoc]
    exact commas_field (commas_later hrest fs h.2) f h.1

theorem commas_later {n : Nat} {rest rest' : List Token} (hrest : Commas true rest rest') :
    (fs : List Field) → Term.FieldsWritable n fs →
      Commas true (Term.laterTokens true fs ++ .mark .closeBrace :: rest)
        (Term.laterTokens false fs ++ .mark .closeBrace :: rest')
  | [], _ => .left hrest
  | f :: fs, h => by
    rw [Term.laterTokens, Term.laterTokens]
    simp only [List.cons_append, List.append_assoc]
    exact .cons _ (commas_field (commas_later hrest fs h.2) f h.1)

theorem commas_field {n : Nat} {b : Bool} {rest rest' : List Token}
    (hrest : Commas true rest rest') :
    (f : Field) → Term.FieldWritable n f →
      Commas b (Term.fieldTokens true f ++ rest) (Term.fieldTokens false f ++ rest')
  | .item v, h => by
    rw [Term.fieldTokens, Term.fieldTokens]
    exact commas_term hrest v h
  | .pair k v, h => by
    rw [Term.fieldTokens, Term.fieldTokens]
    cases hk : k.bareName? with
    | some name => exact .cons _ (.cons _ (commas_term hrest v h.2))
    | none =>
      simp only [List.cons_append, List.append_assoc, List.nil_append]
      exact .cons _ (commas_term (.cons _ (.cons _ (commas_term hrest v h.2))) k h.1)

end

/-- The tokens of a key after the table that it is a key of. -/
theorem commas_suffix {n : Nat} {key : Term} (h : key.Writable n) (hrest : Commas true rest rest') :
    Commas true (key.suffixTokens true ++ rest) (key.suffixTokens false ++ rest') := by
  unfold Term.suffixTokens
  cases key.bareName? with
  | some name => exact .cons _ (.cons _ hrest)
  | none =>
    simp only [List.cons_append, List.append_assoc, List.nil_append]
    have hclosing : Commas true (.mark .closeBracket :: rest) (.mark .closeBracket :: rest') :=
      .cons _ hrest
    exact .cons _ (commas_term hclosing key h)

/-! Statements start with a token that is not a closing brace, wherever they stand. -/

theorem commas_fill {n : Nat} {f : Fill} (h : f.Writable n) (hrest : Commas true rest rest') :
    Commas b (f.tokens true ++ rest) (f.tokens false ++ rest') := by
  unfold Fill.tokens
  simp only [List.append_assoc, List.cons_append]
  refine .append (by simp [Term.slotTokens, Token.endsPart]) nofun (commas_suffix h.key ?_)
  exact .cons _ (commas_term hrest f.value h.value)

theorem commas_binding {n : Nat} {d : Binding} (h : d.Writable n)
    (hrest : Commas true rest rest') :
    Commas b (d.tokens true n ++ rest) (d.tokens false n ++ rest') := by
  unfold Binding.tokens
  cases d.globalName? n with
  | some name => exact .cons _ (.cons _ (commas_term hrest d.value h.value))
  | none =>
    simp only [List.append_assoc, List.cons_append, List.nil_append]
    exact .cons _ (.cons _ (commas_term (.cons _ (.cons _ (commas_term hrest d.value h.value)))
      d.key h.key))

/-- Statements one after the other. -/
theorem commas_flatMap {α : Type} (tokens : Bool → α → List Token) {xs : List α}
    (h : ∀ x ∈ xs, ∀ rest rest', Commas false rest rest' →
      Commas false (tokens true x ++ rest) (tokens false x ++ rest'))
    (hrest : Commas false rest rest') :
    Commas false (xs.flatMap (tokens true) ++ rest) (xs.flatMap (tokens false) ++ rest') := by
  induction xs with
  | nil => exact hrest
  | cons x xs ih =>
    rw [List.flatMap_cons, List.flatMap_cons, List.append_assoc, List.append_assoc]
    exact h x (List.mem_cons_self ..) _ _ (ih fun y hy => h y (List.mem_cons_of_mem x hy))

theorem commas_block {n : Nat} {split : Bool} {block : List Fill} (h : ∀ f ∈ block, f.Writable n)
    (hrest : Commas false rest rest') :
    Commas false (Document.blockTokens true split block ++ rest)
      (Document.blockTokens false split block ++ rest') := by
  have hbody {rest rest' : List Token} (hrest : Commas false rest rest') :
      Commas false (block.flatMap (Fill.tokens true) ++ rest)
        (block.flatMap (Fill.tokens false) ++ rest') :=
    commas_flatMap Fill.tokens (fun f hf _ _ hrest => commas_fill (h f hf) hrest.loose) hrest
  cases split with
  | false => exact hbody hrest
  | true =>
    have hclosing : Commas false
        (.keyword "end" :: .mark .closeParen :: .mark .openParen :: .mark .closeParen ::
          .mark .semicolon :: rest)
        (.keyword "end" :: .mark .closeParen :: .mark .openParen :: .mark .closeParen ::
          .mark .semicolon :: rest') :=
      .cons _ (.cons _ (.cons _ (.cons _ (.cons _ hrest))))
    simp only [Document.blockTokens, if_true, List.append_assoc, List.cons_append, List.nil_append]
    exact .cons _ (.cons _ (.cons _ (.cons _ (hbody hclosing).of_tight)))

theorem commas_document {d : Document} (h : d.Writable) :
    Commas false (d.tokens true) (d.tokens false) := by
  have hbindings : Commas false (d.bindings.flatMap (·.tokens true d.slots) ++ [])
      (d.bindings.flatMap (·.tokens false d.slots) ++ []) :=
    commas_flatMap (fun trailing b => b.tokens trailing d.slots)
      (fun x hx _ _ hrest => commas_binding (h.bindings x hx) hrest.loose) .nil
  have hblocks := commas_flatMap (fun trailing => Document.blockTokens trailing d.split)
    (fun block hblock _ _ hrest => commas_block (h.fills block hblock) hrest) hbindings
  rw [List.append_nil, List.append_nil] at hblocks
  unfold Document.tokens
  rw [List.append_assoc, List.append_assoc]
  split
  · exact hblocks
  · exact .append (by simp [Document.preambleTokens, Token.endsPart]) nofun hblocks.loose

end

/-- **The texts of a document in two layouts** are parsed to the same tree or both rejected. -/
theorem parse_text_layout {d : Document} (h : d.Writable) (layout layout' : Layout) (l : Limits)
    (body : List Stat) :
    parse l (d.text layout) = .ok body ↔ parse l (d.text layout') = .ok body := by
  obtain ⟨lexemes, stop, hlex, htokens⟩ := lexFrom_of_spells (spells_text layout h) {} #[]
  obtain ⟨lexemes', stop', hlex', htokens'⟩ := lexFrom_of_spells (spells_text layout' h) {} #[]
  refine parse_eq_ok_iff_of_commas hlex hlex' ?_ l body
  show Commas true (lexemes.map Lexeme.token) (lexemes'.map Lexeme.token)
  rw [htokens, htokens']
  cases layout.trailing <;> cases layout'.trailing
  · exact .refl _ _
  · exact (commas_document h).symm.loose
  · exact (commas_document h).loose
  · exact .refl _ _

/-! ## Outcomes in two layouts -/

/-- The options for another layout. -/
def Options.relaid (o : Options) (pretty : Bool) (indent : Nat) : Options :=
  { o with pretty, indent }

/-- Both outcomes are texts, which are parsed to one tree within the limits and alike within others,
or both are errors. -/
inductive SameTrees (l : Limits) : Except Error String → Except Error String → Prop
  | ok {text text' : String} : (∃ body, parse l text = .ok body) →
      (∀ l' body, parse l' text = .ok body ↔ parse l' text' = .ok body) →
      SameTrees l (.ok text) (.ok text')
  | error (e e' : Error) : SameTrees l (.error e) (.error e')

/-- The attempts are in the same form and have the same trees, or are both rejected. -/
structure Attempt.Matches (l : Limits) (a a' : Attempt) : Prop where
  form : a'.form = a.form
  outcome : SameTrees l a.outcome a'.outcome

/-- What is checked against the limits. -/
theorem sameTrees_check {l : Limits} {text text' : String}
    (hsame : ∀ l' body, parse l' text = .ok body ↔ parse l' text' = .ok body) :
    SameTrees l ((check l text).map fun _ => text) ((check l text').map fun _ => text') := by
  unfold check
  cases hparse : parse l text with
  | ok body =>
    rw [(hsame l body).1 hparse]
    exact .ok ⟨body, hparse⟩ hsame
  | error e =>
    cases hparse' : parse l text' with
    | ok body => cases hparse.symm.trans ((hsame l body).2 hparse')
    | error e' => exact .error _ _

theorem SameTrees.exists_ok {l : Limits} {r r' : Except Error String} (h : SameTrees l r r')
    {text : String} (hr : r = .ok text) : ∃ text', r' = .ok text' := by
  cases h with
  | ok _ _ => exact ⟨_, rfl⟩
  | error e e' => cases hr

theorem SameTrees.exists_error {l : Limits} {r r' : Except Error String} (h : SameTrees l r r')
    {e : Error} (hr : r = .error e) : ∃ e', r' = .error e' := by
  cases h with
  | ok _ _ => cases hr
  | error e e' => exact ⟨_, rfl⟩

/-- What is loaded. -/
theorem SameTrees.load_eq_ok_iff {l : Limits} {text text' : String}
    (h : SameTrees l (.ok text) (.ok text')) (l' : Limits) (H₀ : Heap) (r : TableId × Heap) :
    load l' text H₀ = .ok r ↔ load l' text' H₀ = .ok r := by
  cases h with
  | ok _ hsame =>
    unfold load
    cases hparse : parse l' text with
    | ok body => rw [(hsame l' body).1 hparse]
    | error e =>
      cases hparse' : parse l' text' with
      | ok body => cases hparse.symm.trans ((hsame l' body).2 hparse')
      | error e' => exact ⟨fun h => (nomatch h), fun h => (nomatch h)⟩

namespace Save

/-- The result of a ladder is that of its last attempt. -/
theorem sameTrees_resultOf {l : Limits} {as as' : List Attempt}
    (h : List.Forall₂ (Attempt.Matches l) as as') : SameTrees l (resultOf as) (resultOf as') := by
  induction h with
  | nil => exact .error _ _
  | @cons a a' as as' ha has ih =>
    cases has with
    | nil =>
      obtain ⟨form, outcome⟩ := a
      obtain ⟨form', outcome'⟩ := a'
      obtain ⟨-, houtcome⟩ := ha
      cases houtcome with
      | ok hparse hsame => exact .ok hparse hsame
      | error e e' => exact .error _ _
    | cons hb hbs => exact ih

/-! ## Saving in two layouts -/

section

variable {σ : Type} {H : Heap} {o : Options} {bindings : TableId} {required : Option TableId}
  {form : Form} {s s' : σ}

/-- What can be written of bindings is writable. -/
theorem writable_document (h : H.WellFormed)
    (hdeep : (document H o bindings required form).isTooDeep = false) :
    (document H o bindings required form).Writable := by
  have hin (e : Entry) (he : e ∈ entriesOf H bindings required) := inHeap_of_mem_entriesOf h he
  have hkeys := nodup_entriesOf h bindings required
  have hkey (e : Entry) (he : e ∈ entriesOf H bindings required) := isKey_of_mem_entriesOf h he
  have hsound := sound_censusOf h hin
  have hshallow := (shallow_iff hsound.nodup).1 hdeep
  exact writable_ofBindings hsound.nodup (faithful h hin hkeys hkey hshallow).few hshallow

theorem render_of_isTooDeep (hdeep : (document H o bindings required form).isTooDeep = true) :
    render H o (censusOf H (entriesOf H bindings required)) (entriesOf H bindings required) form =
      .error (.tooDeep o.limits.maxDepth) := by
  unfold document at hdeep
  unfold render
  dsimp only at hdeep ⊢
  rw [if_pos hdeep]

theorem render_of_not_isTooDeep (hdeep : (document H o bindings required form).isTooDeep = false) :
    render H o (censusOf H (entriesOf H bindings required)) (entriesOf H bindings required) form =
      .ok ((document H o bindings required form).text (layoutOf o)) := by
  unfold document at hdeep ⊢
  unfold render
  dsimp only at hdeep ⊢
  rw [if_neg (Bool.eq_false_iff.1 hdeep)]

/-- A form has a text if nothing in its document is too deep. -/
theorem rendering_eq_ok_iff {text : String} :
    rendering H o bindings required form = .ok text ↔
      (document H o bindings required form).isTooDeep = false ∧
        (document H o bindings required form).text (layoutOf o) = text := by
  unfold rendering
  dsimp only
  cases hdeep : (document H o bindings required form).isTooDeep with
  | true => simp [render_of_isTooDeep hdeep]
  | false => simp [render_of_not_isTooDeep hdeep]

theorem run_parsing (l : Limits) (text : String) (s : σ) :
    (parsing l text).run s = (check l text, s) := rfl

variable (pretty : Bool) (indent : Nat)

/-- Only the text of a document depends on the layout. -/
theorem document_relaid : document H (o.relaid pretty indent) bindings required form =
    document H o bindings required form := rfl

/-- Trying a form in another layout. -/
theorem matches_tryForm (h : H.WellFormed) {a : Attempt}
    (ha : (tryForm (parsing o.limits) H o (censusOf H (entriesOf H bindings required))
      (entriesOf H bindings required) form).run s = (a, s')) :
    ∃ a', (tryForm (parsing o.limits) H (o.relaid pretty indent)
        (censusOf H (entriesOf H bindings required)) (entriesOf H bindings required) form).run s =
      (a', s') ∧ a.Matches o.limits a' := by
  cases hdeep : (document H o bindings required form).isTooDeep with
  | true =>
    rw [run_tryForm_error (render_of_isTooDeep hdeep)] at ha
    cases ha
    rw [← document_relaid pretty indent] at hdeep
    refine ⟨_, run_tryForm_error (render_of_isTooDeep hdeep), ?_⟩
    exact ⟨rfl, .error _ _⟩
  | false =>
    have hwritable := writable_document h hdeep
    rw [run_tryForm_ok (render_of_not_isTooDeep hdeep), run_parsing] at ha
    cases ha
    rw [← document_relaid pretty indent] at hdeep
    rw [run_tryForm_ok (render_of_not_isTooDeep hdeep), run_parsing]
    exact ⟨_, rfl, rfl, sameTrees_check (parse_text_layout hwritable _ _)⟩

/-- An attempt in another layout. -/
theorem matches_attempt (h : H.WellFormed) {a : Attempt}
    (ha : (attempt? (parsing o.limits) H o bindings required form).run.run s = (some a, s')) :
    ∃ a', (attempt? (parsing o.limits) H (o.relaid pretty indent) bindings required form).run.run
      s = (some a', s') ∧ a.Matches o.limits a' := by
  obtain ⟨hs, ha⟩ := (run_attempt?_eq_some_iff h s).1 ha
  unfold attempt at ha
  obtain ⟨a', ha', hmatches⟩ := matches_tryForm pretty indent h ha
  refine ⟨a', (run_attempt?_eq_some_iff h s).2 ⟨hs, ?_⟩, hmatches⟩
  unfold attempt
  exact ha'

/-- The rounds of a ladder in another layout. -/
theorem matches_rounds (h : H.WellFormed) {rounds : List (Round σ)}
    (hrounds : Rounds (parsing o.limits) H o bindings required form s rounds s') :
    ∃ rounds', Rounds (parsing o.limits) H (o.relaid pretty indent) bindings required form s
        rounds' s' ∧
      List.Forall₂ (Attempt.Matches o.limits) (rounds.map Round.attempt)
        (rounds'.map Round.attempt) := by
  induction hrounds with
  | accepted ha hout =>
    obtain ⟨a', ha', hmatches⟩ := matches_attempt pretty indent h ha
    obtain ⟨text', hout'⟩ := hmatches.outcome.exists_ok hout
    exact ⟨_, .accepted ha' hout', .cons hmatches .nil⟩
  | exhausted ha hout hnone =>
    obtain ⟨a', ha', hmatches⟩ := matches_attempt pretty indent h ha
    obtain ⟨reason', hout'⟩ := hmatches.outcome.exists_error hout
    exact ⟨_, .exhausted ha' hout' (hmatches.form ▸ hnone), .cons hmatches .nil⟩
  | next ha hout hnext _ ih =>
    obtain ⟨a', ha', hmatches⟩ := matches_attempt pretty indent h ha
    obtain ⟨reason', hout'⟩ := hmatches.outcome.exists_error hout
    obtain ⟨rounds', hrounds', hall⟩ := ih
    exact ⟨_, .next ha' hout' (hmatches.form ▸ hnext) hrounds', .cons hmatches hall⟩

/-- **Layout never changes meaning.** In two layouts an attempt is made in the same form and
accepted for both or rejected for both, so the same forms are tried, and what is saved is parsed to
the same tree and loads alike. Where a sort panics for one of them, it does for the other. -/
theorem attempt_layout (h : H.WellFormed) (o : Options) (bindings : TableId)
    (required : Option TableId) (form : Form) (s : σ) :
    let o' := o.relaid pretty indent
    let tried (o : Options) :=
      ((attempt? (parsing o.limits) H o bindings required form).run.run s).1
    let climbed (o : Options) := ((attempts? (parsing o.limits) H o bindings required).run.run s).1
    let saved (o : Options) := ((save? (parsing o.limits) H o bindings required).run.run s).1
    Option.Rel (Attempt.Matches o.limits) (tried o) (tried o') ∧
      Option.Rel (List.Forall₂ (Attempt.Matches o.limits)) (climbed o) (climbed o') ∧
      Option.Rel (SameTrees o.limits) (saved o) (saved o') ∧
      ∀ text text', saved o = some (.ok text) → saved o' = some (.ok text') →
        ∀ l H₀ r, load l text H₀ = .ok r ↔ load l text' H₀ = .ok r := by
  intro o' tried climbed saved
  by_cases hs : Sorts H bindings required
  · obtain ⟨rounds, s', hrounds⟩ := exists_rounds (parsing o.limits) o h hs o.form s
    obtain ⟨rounds', hrounds', hall⟩ := matches_rounds pretty indent h hrounds
    have hattempts : climbed o = _ := congrArg Prod.fst (hrounds.run_attempts? h hs)
    have hattempts' : climbed o' = _ := congrArg Prod.fst (hrounds'.run_attempts? h hs)
    have hsave : saved o = _ := congrArg Prod.fst (hrounds.run_save? h hs)
    have hsave' : saved o' = _ := congrArg Prod.fst (hrounds'.run_save? h hs)
    have hsaved := sameTrees_resultOf hall
    refine ⟨?_, hattempts ▸ hattempts' ▸ .some hall, hsave ▸ hsave' ▸ .some hsaved,
      fun text text' htext htext' => ?_⟩
    · cases ha : (attempt (parsing o.limits) H o bindings required form).run s with
      | mk a s₁ =>
        have ha := (run_attempt?_eq_some_iff h s).2 ⟨hs, ha⟩
        obtain ⟨a', ha', hmatches⟩ := matches_attempt pretty indent h ha
        have htried : tried o = some a := congrArg Prod.fst ha
        have htried' : tried o' = some a' := congrArg Prod.fst ha'
        rw [htried, htried']
        exact .some hmatches
    · rw [Option.some.inj (hsave.symm.trans htext), Option.some.inj (hsave'.symm.trans htext')]
        at hsaved
      exact hsaved.load_eq_ok_iff
  · have htried (o : Options) : tried o = none :=
      congrArg Prod.fst (attempt?_of_not_sorts h s hs)
    have hclimbed (o : Options) : climbed o = none :=
      congrArg Prod.fst (attempts?_of_not_sorts h s hs)
    have hsaved (o : Options) : saved o = none := congrArg Prod.fst (save?_of_not_sorts h s hs)
    refine ⟨?_, ?_, ?_, fun text _ htext => ?_⟩
    · rw [htried, htried]
      exact .none
    · rw [hclimbed, hclimbed]
      exact .none
    · rw [hsaved, hsaved]
      exact .none
    · rw [hsaved] at htext
      cases htext

end

/-- The text of the nested bindings in the layout for reading, and that on one line. -/
def nestedLines : String := "a = \x7b\n  \x7b\x7d,\n\x7d\n"

def nestedLine : String := "a = \x7b\x7b\x7d\x7d\n"

theorem attempt_layout_nested :
    nested.WellFormed ∧
      ((save? (parsing ({} : Options).limits) nested {} 0 none).run.run ()).1 =
        some (.ok nestedLines) ∧
      ((save? (parsing ({} : Options).limits) nested (({} : Options).relaid false 0) 0
        none).run.run ()).1 = some (.ok nestedLine) ∧
      ∀ l H₀ r, load l nestedLines H₀ = .ok r ↔ load l nestedLine H₀ = .ok r := by
  have hwf : nested.WellFormed := by decide
  have htext : ((save? (parsing ({} : Options).limits) nested {} 0 none).run.run ()).1 =
      some (.ok nestedLines) := by decide +kernel
  have hline : ((save? (parsing ({} : Options).limits) nested (({} : Options).relaid false 0) 0
      none).run.run ()).1 = some (.ok nestedLine) := by decide +kernel
  obtain ⟨-, -, -, hload⟩ := attempt_layout false 0 hwf {} 0 none .tree ()
  exact ⟨hwf, htext, hline, hload _ _ htext hline⟩

end Save

end LuaGraph
