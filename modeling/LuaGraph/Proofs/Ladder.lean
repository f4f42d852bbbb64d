import LuaGraph.Proofs.Graph.Flat
import LuaGraph.Proofs.Panics

/-!
# Climbing the ladder

Saving (`Persister::persist`) is a protocol with a checker (`SyntaxCheck`) that may keep a state and
answer as it likes. Each *round* is an attempt (`attempt`) in the state that the round before left
behind; a rejected round is followed by one that asks for the next form (`Strategy::next`), until a
round is accepted or there is no next form.

Out of scope: a checker that does not return.

Headlines:
* `ends_attempt`: the three ways in which an attempt can end.
* **`save_rounds`**: what is saved, or the error, is decided by the last of at most three rounds
  whose forms climb strictly.
-/

namespace LuaGraph.Save

/-! ## Rounds -/

/-- A round of a ladder: the form that is asked for, the attempt that is made, and the states of the
checker before and after it. -/
structure Round (σ : Type) where
  asked : Form
  before : σ
  attempt : Attempt
  after : σ

section

variable {σ : Type} (check : Check σ) (H : Heap) (o : Options) (bindings : TableId)
  (required : Option TableId)

/-- **How an attempt ends**, from one state of the checker to another. Only in the tree form can a
table be too deep, and then the checker is not asked; in all other cases it is asked about the
rendering of the attempt itself. -/
inductive Ends (s : σ) : Attempt → σ → Prop
  | tooDeep : rendering? H o bindings required .tree = some (.error (.tooDeep o.limits.maxDepth)) →
      Ends s ⟨.tree, .error (.tooDeep o.limits.maxDepth)⟩ s
  | rejected {form : Form} {text : String} {reason : Error} {s' : σ} :
      rendering? H o bindings required form = some (.ok text) →
      (check text).run s = (.error reason, s') → Ends s ⟨form, .error reason⟩ s'
  | accepted {form : Form} {text : String} {s' : σ} :
      rendering? H o bindings required form = some (.ok text) →
      (check text).run s = (.ok (), s') → Ends s ⟨form, .ok text⟩ s'

/-- The rounds from a form and a state on: a rejected attempt is followed by one that asks for the
next form, in the state that is left behind. -/
inductive Rounds : Form → σ → List (Round σ) → σ → Prop
  | accepted {form : Form} {s s' : σ} {a : Attempt} {text : String} :
      (attempt? check H o bindings required form).run.run s = (some a, s') → a.outcome = .ok text →
      Rounds form s [⟨form, s, a, s'⟩] s'
  | exhausted {form : Form} {s s' : σ} {a : Attempt} {reason : Error} :
      (attempt? check H o bindings required form).run.run s = (some a, s') →
      a.outcome = .error reason → a.form.next? = none → Rounds form s [⟨form, s, a, s'⟩] s'
  | next {form next : Form} {s s' s'' : σ} {a : Attempt} {reason : Error}
      {rounds : List (Round σ)} :
      (attempt? check H o bindings required form).run.run s = (some a, s') →
      a.outcome = .error reason → a.form.next? = some next → Rounds next s' rounds s'' →
      Rounds form s (⟨form, s, a, s'⟩ :: rounds) s''

/-- **A ladder**: rounds that were rejected and a last one, which decides the result. -/
structure Ladder (s : σ) (earlier : List (Round σ)) (last : Round σ)
    (result : Except Error String) : Prop where
  rounds : Rounds check H o bindings required o.form s (earlier ++ [last]) last.after
  few : (earlier ++ [last]).length ≤ 3
  climbs : ((earlier ++ [last]).map (·.attempt.form.rank)).Pairwise (· < ·)
  least : ∀ r ∈ earlier ++ [last], o.form.rank ≤ r.attempt.form.rank
  ends : ∀ r ∈ earlier ++ [last], Ends check H o bindings required r.before r.attempt r.after
  rejected : ∀ r ∈ earlier, ∃ reason, r.attempt.outcome = .error reason
  /-- The text is what the last attempt rendered and the checker accepted in it. -/
  ok_iff : ∀ text, result = .ok text ↔
    rendering? H o bindings required last.attempt.form = some (.ok text) ∧
      (check text).run last.before = (.ok (), last.after)
  /-- There is no error but the rejection of the last form. -/
  error : ∀ e, result = .error e →
    ∃ reason, last.attempt = ⟨.split, .error reason⟩ ∧ e = .unrecoverable .split reason.message

end

/-! ## Attempts -/

section

variable {σ : Type} {check : Check σ} {H : Heap} {o : Options} {c : Census} {es : List Entry}
  {form : Form} {s : σ}

theorem run_tryForm_error {reason : Error} (h : render H o c es form = .error reason) :
    (tryForm check H o c es form).run s = (⟨form, .error reason⟩, s) := by
  unfold tryForm
  rw [h]
  rfl

/-- A form that is rendered is shown to the checker. -/
theorem run_tryForm_ok {text : String} (h : render H o c es form = .ok text) :
    (tryForm check H o c es form).run s =
      (⟨form, ((check text).run s).1.map fun _ => text⟩, ((check text).run s).2) := by
  unfold tryForm
  rw [h]
  show (StateT.run (check text >>= _) s) = _
  rw [StateT.run_bind]
  generalize (check text).run s = r
  obtain ⟨verdict, s'⟩ := r
  cases verdict <;> rfl

theorem form_tryForm : ((tryForm check H o c es form).run s).1.form = form := by
  cases h : render H o c es form with
  | error reason => rw [run_tryForm_error h]
  | ok text => rw [run_tryForm_ok h]

/-! One round of a climb, by what comes of it. -/

variable {s' : σ} {a : Attempt}

theorem run_climb_ok (ha : (tryForm check H o c es (effective o c form)).run s = (a, s'))
    {text : String} (hout : a.outcome = .ok text) :
    (climb check H o c es form).run s = ([a], s') := by
  rw [climb, StateT.run_bind, ha]
  show StateT.run _ s' = _
  dsimp only
  rw [hout]
  rfl

theorem run_climb_exhausted (ha : (tryForm check H o c es (effective o c form)).run s = (a, s'))
    {reason : Error} (hout : a.outcome = .error reason)
    (hnone : (effective o c form).next? = none) :
    (climb check H o c es form).run s = ([a], s') := by
  rw [climb, StateT.run_bind, ha]
  show StateT.run _ s' = _
  dsimp only
  rw [hout]
  dsimp only
  split
  · rfl
  · rename_i next hnext
    cases hnone.symm.trans hnext

theorem run_climb_next (ha : (tryForm check H o c es (effective o c form)).run s = (a, s'))
    {reason : Error} (hout : a.outcome = .error reason) {next : Form}
    (hnext : (effective o c form).next? = some next) {as : List Attempt} {s'' : σ}
    (h : (climb check H o c es next).run s' = (as, s'')) :
    (climb check H o c es form).run s = (a :: as, s'') := by
  rw [climb, StateT.run_bind, ha]
  show StateT.run _ s' = _
  dsimp only
  rw [hout]
  dsimp only
  split
  · rename_i hnone
    cases hnone.symm.trans hnext
  · rename_i next' hnext'
    cases hnext.symm.trans hnext'
    show StateT.run ((a :: ·) <$> _) s' = _
    rw [StateT.run_map, h]
    rfl
end

variable {σ : Type} {check : Check σ} {H : Heap} {o : Options} {bindings : TableId}
  {required : Option TableId} {form : Form} {s s' : σ} {a : Attempt} {rounds : List (Round σ)}

theorem form_attempt (ha : (attempt check H o bindings required form).run s = (a, s')) :
    a.form = effective o (censusOf H (entriesOf H bindings required)) form := by
  unfold attempt at ha
  dsimp only at ha
  generalize entriesOf H bindings required = es at ha ⊢
  exact congrArg (·.1.form) ha.symm |>.trans form_tryForm

/-- An attempt is made in the form asked for or a later one. -/
theorem rank_le_attempt (h : H.WellFormed)
    (ha : (attempt? check H o bindings required form).run.run s = (some a, s')) :
    form.rank ≤ a.form.rank :=
  form_attempt ((run_attempt?_eq_some_iff h s).1 ha).2 ▸ rank_le_effective ..

/-- Only in the tree form can a table be too deep. -/
theorem rendering_eq_error (h : H.WellFormed) {reason : Error}
    (hr : rendering H o bindings required form = .error reason) :
    form = .tree ∧ reason = .tooDeep o.limits.maxDepth := by
  unfold rendering render at hr
  dsimp only at hr
  split at hr
  · rename_i hdeep
    refine ⟨Decidable.byContradiction fun hform => ?_, (Except.error.inj hr).symm⟩
    have hin (e : Entry) (he : e ∈ entriesOf H bindings required) := inHeap_of_mem_entriesOf h he
    have hflat := flat_ofBindings (o := o) h hin hform
    exact absurd hdeep (Bool.eq_false_iff.1 hflat.isTooDeep)
  · cases hr

/-- **An attempt ends in one of three ways**, unless it panics. -/
theorem ends_attempt (h : H.WellFormed)
    (ha : (attempt? check H o bindings required form).run.run s = (some a, s')) :
    Ends check H o bindings required s a s' := by
  obtain ⟨hs, ha⟩ := (run_attempt?_eq_some_iff h s).1 ha
  have hrender (form : Form) : rendering H o bindings required form =
      render H o (censusOf H (entriesOf H bindings required)) (entriesOf H bindings required)
        form := rfl
  have hrendered {form : Form} {r : Except Error String}
      (hr : rendering H o bindings required form = r) := (rendering?_eq_some_iff h).2 ⟨hs, hr⟩
  unfold attempt at ha
  dsimp only at ha
  generalize effective o (censusOf H (entriesOf H bindings required)) form = form' at ha
  cases hr : rendering H o bindings required form' with
  | error reason =>
    obtain ⟨rfl, rfl⟩ := rendering_eq_error h hr
    rw [run_tryForm_error ((hrender _).symm.trans hr)] at ha
    cases ha
    exact .tooDeep (hrendered hr)
  | ok text =>
    rw [run_tryForm_ok ((hrender _).symm.trans hr)] at ha
    cases hc : (check text).run s with
    | mk verdict s'' =>
      rw [hc] at ha
      cases verdict with
      | error reason =>
        cases ha
        exact .rejected (hrendered hr) hc
      | ok u =>
        cases ha
        exact .accepted (hrendered hr) hc

/-- An attempt has a text exactly if the checker accepted its rendering. -/
theorem Ends.outcome_eq_ok_iff (h : Ends check H o bindings required s a s') (text : String) :
    a.outcome = .ok text ↔
      rendering? H o bindings required a.form = some (.ok text) ∧
        (check text).run s = (.ok (), s') := by
  cases h with
  | tooDeep hr =>
    refine ⟨fun hout => (nomatch hout), fun hok => ?_⟩
    cases hr.symm.trans hok.1
  | rejected hr hc =>
    refine ⟨fun hout => (nomatch hout), fun hok => ?_⟩
    cases hr.symm.trans hok.1
    cases hc.symm.trans hok.2
  | accepted hr hc =>
    constructor
    · intro hout
      cases hout
      exact ⟨hr, hc⟩
    · intro hok
      exact Option.some.inj (hr.symm.trans hok.1)

/-! ## Rounds of a ladder -/

namespace Rounds

/-- Every round is an attempt in the form that it asks for. -/
theorem attempts (h : Rounds check H o bindings required form s rounds s') :
    ∀ r ∈ rounds, (attempt? check H o bindings required r.asked).run.run r.before =
      (some r.attempt, r.after) := by
  induction h with
  | accepted ha _ => exact List.forall_mem_singleton.2 ha
  | exhausted ha _ _ => exact List.forall_mem_singleton.2 ha
  | next ha _ _ _ ih => exact List.forall_mem_cons.2 ⟨ha, ih⟩

theorem rank_le (hwf : H.WellFormed) (h : Rounds check H o bindings required form s rounds s') :
    ∀ r ∈ rounds, form.rank ≤ r.attempt.form.rank := by
  induction h with
  | accepted ha _ => exact List.forall_mem_singleton.2 (rank_le_attempt hwf ha)
  | exhausted ha _ _ => exact List.forall_mem_singleton.2 (rank_le_attempt hwf ha)
  | next ha _ hnext _ ih =>
    have hlt := Nat.lt_of_le_of_lt (rank_le_attempt hwf ha) (Form.rank_lt_of_next? hnext)
    exact List.forall_mem_cons.2
      ⟨rank_le_attempt hwf ha, fun r hr => Nat.le_trans (Nat.le_of_lt hlt) (ih r hr)⟩

/-- Only what comes of the attempts matters. -/
theorem congr {H' : Heap} {bindings' : TableId} {required' : Option TableId}
    (h : Rounds check H o bindings required form s rounds s')
    (hattempt : ∀ form, attempt? check H o bindings required form =
      attempt? check H' o bindings' required' form) :
    Rounds check H' o bindings' required' form s rounds s' := by
  induction h with
  | accepted ha hout => exact .accepted (hattempt _ ▸ ha) hout
  | exhausted ha hout hnone => exact .exhausted (hattempt _ ▸ ha) hout hnone
  | next ha hout hnext _ ih => exact .next (hattempt _ ▸ ha) hout hnext ih

/-- **The forms of the rounds climb strictly.** -/
theorem climbs (hwf : H.WellFormed) (h : Rounds check H o bindings required form s rounds s') :
    (rounds.map (·.attempt.form.rank)).Pairwise (· < ·) := by
  induction h with
  | accepted _ _ => exact List.pairwise_singleton ..
  | exhausted _ _ _ => exact List.pairwise_singleton ..
  | next ha _ hnext hrounds ih =>
    refine List.pairwise_cons.2 ⟨fun n hn => ?_, ih⟩
    obtain ⟨r, hr, rfl⟩ := List.mem_map.1 hn
    exact Nat.lt_of_lt_of_le (Form.rank_lt_of_next? hnext) (hrounds.rank_le hwf r hr)

/-- There are no more rounds than forms from the first one on. -/
theorem length_le (hwf : H.WellFormed) (h : Rounds check H o bindings required form s rounds s') :
    rounds.length + form.rank ≤ 3 := by
  have hrank (form : Form) : form.rank ≤ 2 := by cases form <;> decide
  induction h with
  | @accepted form _ _ _ _ _ _ =>
    have := hrank form
    rw [List.length_singleton]
    omega
  | @exhausted form _ _ _ _ _ _ _ =>
    have := hrank form
    rw [List.length_singleton]
    omega
  | next ha _ hnext _ ih =>
    have := rank_le_attempt hwf ha
    have := Form.rank_lt_of_next? hnext
    rw [List.length_cons]
    omega

/-- All rounds but the last are rejected, and the last one is accepted or in the last form. -/
theorem eq_append (h : Rounds check H o bindings required form s rounds s') :
    ∃ earlier last, rounds = earlier ++ [last] ∧ last.after = s' ∧
      (∀ r ∈ earlier, ∃ reason, r.attempt.outcome = .error reason) ∧
      ∀ reason, last.attempt.outcome = .error reason → last.attempt.form.next? = none := by
  induction h with
  | @accepted form s s' a text ha hok =>
    refine ⟨[], ⟨form, s, a, s'⟩, rfl, rfl, List.forall_mem_nil _, fun reason herror => ?_⟩
    cases hok.symm.trans herror
  | @exhausted form s s' a reason ha _ hnone =>
    exact ⟨[], ⟨form, s, a, s'⟩, rfl, rfl, List.forall_mem_nil _, fun _ _ => hnone⟩
  | @next form next s s' s'' a reason rounds ha herror _ _ ih =>
    obtain ⟨earlier, last, rfl, hafter, hrejected, hlast⟩ := ih
    exact ⟨⟨form, s, a, s'⟩ :: earlier, last, rfl, hafter,
      List.forall_mem_cons.2 ⟨⟨reason, herror⟩, hrejected⟩, hlast⟩

end Rounds

/-! ## Ladders -/

/-- There are rounds from every form and state on, where no sort panics. -/
theorem exists_rounds (check : Check σ) (o : Options) (hwf : H.WellFormed)
    (hs : Sorts H bindings required) (form : Form) (s : σ) :
    ∃ rounds s', Rounds check H o bindings required form s rounds s' := by
  cases ha : (attempt check H o bindings required form).run s with
  | mk a s₁ =>
    have ha := (run_attempt?_eq_some_iff hwf s).2 ⟨hs, ha⟩
    cases hout : a.outcome with
    | ok text => exact ⟨_, _, .accepted ha hout⟩
    | error reason =>
      cases hnext : a.form.next? with
      | none => exact ⟨_, _, .exhausted ha hout hnext⟩
      | some next =>
        have hlt := Nat.lt_of_le_of_lt (rank_le_attempt hwf ha) (Form.rank_lt_of_next? hnext)
        have hrank : next.rank ≤ 2 := by cases next <;> decide
        obtain ⟨rounds, s'', hrounds⟩ := exists_rounds check o hwf hs next s₁
        exact ⟨_, _, .next ha hout hnext hrounds⟩
termination_by 2 - form.rank

/-- **The attempts of a ladder are those of its rounds.** -/
theorem Rounds.run_climb (hwf : H.WellFormed)
    (h : Rounds check H o bindings required form s rounds s') :
    (climb check H o (censusOf H (entriesOf H bindings required))
      (entriesOf H bindings required) form).run s = (rounds.map Round.attempt, s') := by
  induction h with
  | accepted ha hout =>
    have ha := ((run_attempt?_eq_some_iff hwf _).1 ha).2
    unfold attempt at ha
    exact run_climb_ok ha hout
  | exhausted ha hout hnone =>
    have ha := ((run_attempt?_eq_some_iff hwf _).1 ha).2
    rw [form_attempt ha] at hnone
    unfold attempt at ha
    exact run_climb_exhausted ha hout hnone
  | next ha hout hnext _ ih =>
    have ha := ((run_attempt?_eq_some_iff hwf _).1 ha).2
    rw [form_attempt ha] at hnext
    unfold attempt at ha
    exact run_climb_next ha hout hnext ih

theorem Rounds.run_attempts? (hwf : H.WellFormed) (hs : Sorts H bindings required)
    (h : Rounds check H o bindings required o.form s rounds s') :
    (attempts? check H o bindings required).run.run s = (some (rounds.map Round.attempt), s') := by
  rw [attempts?_of_sorts hwf hs, run_lift, h.run_climb hwf]

/-- What is saved is the result of the attempts of all rounds. -/
theorem Rounds.run_save? (hwf : H.WellFormed) (hs : Sorts H bindings required)
    (h : Rounds check H o bindings required o.form s rounds s') :
    (save? check H o bindings required).run.run s =
      (some (resultOf (rounds.map Round.attempt)), s') := by
  rw [save?_of_sorts hwf hs, run_lift, save, StateT.run_map, h.run_climb hwf]
  rfl

theorem resultOf_append (as : List Attempt) (a : Attempt) :
    resultOf (as ++ [a]) = resultOf [a] := by
  induction as with
  | nil => rfl
  | cons b as ih =>
    cases as with
    | nil => rfl
    | cons c as => exact ih

/-- The result of a last attempt that is accepted, or rejected in the last form. -/
theorem resultOf_last {a : Attempt}
    (h : ∀ reason, a.outcome = .error reason → a.form.next? = none) :
    (∀ text, resultOf [a] = .ok text ↔ a.outcome = .ok text) ∧
      ∀ e, resultOf [a] = .error e →
        ∃ reason, a = ⟨.split, .error reason⟩ ∧ e = .unrecoverable .split reason.message := by
  obtain ⟨form, outcome⟩ := a
  cases outcome with
  | ok text =>
    refine ⟨fun text => Iff.rfl, fun e he => ?_⟩
    cases he
  | error reason =>
    obtain rfl : form = .split := by
      have := h reason rfl
      cases form with
      | split => rfl
      | _ => cases this
    refine ⟨fun text => ⟨fun h => (nomatch h), fun h => (nomatch h)⟩, fun e he => ?_⟩
    exact ⟨reason, rfl, (Except.error.inj he).symm⟩

/-- What is saved depends on what comes of the attempts only. -/
theorem save?_congr {check : Check σ} {H H' : Heap} {o : Options} {bindings bindings' : TableId}
    {required required' : Option TableId} (hwf : H.WellFormed) (hwf' : H'.WellFormed)
    (hs : Sorts H bindings required) (hs' : Sorts H' bindings' required')
    (hattempt : ∀ form, attempt? check H o bindings required form =
      attempt? check H' o bindings' required' form) :
    save? check H o bindings required = save? check H' o bindings' required' := by
  funext s
  obtain ⟨rounds, s', hrounds⟩ := exists_rounds check o hwf hs o.form s
  exact (hrounds.run_save? hwf hs).trans ((hrounds.congr hattempt).run_save? hwf' hs').symm

/-- **What is saved is decided by the last of at most three rounds**, unless a sort panics. Then the
checker is not asked. -/
theorem save_rounds (h : H.WellFormed) (check : Check σ) (o : Options) (bindings : TableId)
    (required : Option TableId) (s : σ) :
    (Sorts H bindings required → ∃ earlier last result,
      (save? check H o bindings required).run.run s = (some result, last.after) ∧
      Ladder check H o bindings required s earlier last result) ∧
    (¬Sorts H bindings required → (save? check H o bindings required).run.run s = (none, s)) := by
  refine ⟨fun hs => ?_, save?_of_not_sorts h s⟩
  obtain ⟨rounds, s', hrounds⟩ := exists_rounds check o h hs o.form s
  obtain ⟨earlier, last, rfl, rfl, hrejected, hlast⟩ := hrounds.eq_append
  obtain ⟨hok, herror⟩ := resultOf_last hlast
  have hends : ∀ r ∈ earlier ++ [last],
      Ends check H o bindings required r.before r.attempt r.after :=
    fun r hr => ends_attempt h (hrounds.attempts r hr)
  have hlastEnds := hends last (List.mem_append_right _ (List.mem_singleton_self last))
  have hlength := hrounds.length_le h
  have hsave := hrounds.run_save? h hs
  rw [List.map_append, List.map_singleton, resultOf_append] at hsave
  exact ⟨earlier, last, _, hsave, hrounds, by omega, hrounds.climbs h, hrounds.rank_le h, hends,
    hrejected, fun text => (hok text).trans (hlastEnds.outcome_eq_ok_iff text), herror⟩

/-- Bindings with a table in a table. -/
def nested : Heap where
  tables := #[⟨[(.string "a", .table 1)], 0⟩, ⟨[(.index 1, .table 2)], 1⟩, {}]

/-- The options under which a table in a table is too deep. -/
def shallow : Options := { limits := { maxDepth := 1 } }

/-- A checker that counts its calls and rejects the first text it is shown. -/
def grudging : Check Nat := fun _ calls =>
  (if calls = 0 then .error (.custom "not yet") else .ok (), calls + 1)

/-- The nested bindings in the split form. -/
def nestedText : String :=
  "local ref = \x7b\x7d\nfor i = 1, 2 do ref[i] = \x7b\x7d end\n" ++
  "(function()\nref[1][1] = ref[2]\nend)();\na = ref[1]\n"

theorem save_rounds_nested :
    nested.WellFormed ∧
      ((save? grudging nested shallow 0 none).run.run 0).1 = some (.ok nestedText) ∧
      ∃ earlier last, Ladder grudging nested shallow 0 none 0 earlier last (.ok nestedText) ∧
        last.after = 2 := by
  have hwf : nested.WellFormed := by decide +kernel
  have hresult : ((save? grudging nested shallow 0 none).run.run 0).1 = some (.ok nestedText) := by
    decide +kernel
  have hcalls : ((save? grudging nested shallow 0 none).run.run 0).2 = 2 := by decide +kernel
  obtain ⟨hsorts, hpanics⟩ := save_rounds hwf grudging shallow 0 none 0
  have hs : Sorts nested 0 none := by
    by_contra hs
    rw [hpanics hs] at hresult
    cases hresult
  obtain ⟨earlier, last, result, hsave, hladder⟩ := hsorts hs
  rw [hsave] at hresult hcalls
  obtain rfl := Option.some.inj hresult
  exact ⟨hwf, by rw [hsave], earlier, last, hladder, hcalls⟩

end LuaGraph.Save
