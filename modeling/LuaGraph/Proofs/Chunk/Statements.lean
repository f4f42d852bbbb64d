import LuaGraph.Proofs.Chunk.Grammar

/-!
# Parsing statements

A fill statement (`write_fills`) and a binding (`write_binding`) are assignments of a term. Each is
parsed to a statement of its own, with the constants of its terms counted, if it is no higher than
there are levels left; and so are any number of them, one after the other.

Results: `run_fill`, `run_binding`, and `chain_fills` and `chain_bindings` for rows of them.
-/

namespace LuaGraph

open Chunk

/-! ## What statements are parsed to -/

namespace Fill

/-- The statement that a fill statement is parsed to. -/
def stat (f : Fill) : Stat :=
  .assign (.index (.index (.name Term.slotTable) (naturalConstant f.slot).expr) f.key.expr)
    f.value.expr

/-- The constants of a fill statement. -/
def constants (f : Fill) : List Constant :=
  naturalConstant f.slot :: f.key.constants ++ f.value.constants

/-- The levels of a fill statement. -/
def height (f : Fill) : Nat := max f.key.height f.value.height

end Fill

namespace Binding

/-- The statement that a binding is parsed to. -/
def stat (slots : Nat) (b : Binding) : Stat :=
  .assign (match b.globalName? slots with
    | some name => .name name
    | none => .index (.name "_ENV") b.key.expr) b.value.expr

/-- The constants of a binding. -/
def constants (b : Binding) : List Constant := b.key.constants ++ b.value.constants

/-- The levels of a binding. -/
def height (b : Binding) : Nat := max b.key.height b.value.height

end Binding

/-- The constants of a group of fill statements. -/
def Document.blockConstants (block : List Fill) : List Constant := block.flatMap Fill.constants

namespace Chunk.Parse

variable {max levels : Nat} {s s' s'' : State} {ts rest : List Token}

theorem height_pos : (t : Term) → 1 ≤ t.height
  | .atom (.number n) => by
    show 1 ≤ n.spelling.height
    cases n.spelling with
    | literal neg c => cases neg <;> simp [Spelling.height]
    | operation neg left op right => simp [Spelling.height]
  | .atom .nil => Nat.le_refl _
  | .atom (.boolean _) => Nat.le_refl _
  | .atom (.string _) => Nat.le_refl _
  | .atom (.remark _) => Nat.le_refl _
  | .slot _ => Nat.le_succ _
  | .tooDeep => Nat.le_refl _
  | .table _ => Nat.le_add_left _ _

/-! ## Assignments -/

theorem run_assignment {inner : Inner} {target value : Expr}
    (h : suffixed max inner s = .ok (target, s')) (hs' : s'.tokens = .mark .equals :: rest)
    (ht : target.isTarget = true) (hv : inner.expr (s'.past 1 []) = .ok (value, s'')) :
    assignment max inner s = .ok (.assign target value, s'') := by
  unfold assignment
  rw [run_bind h, run_bind (run_accept hs')]
  simp only [ht, if_true, Bool.not_true, Bool.false_eq_true, if_false]
  rw [run_bind hv]
  rfl

theorem run_assignment_call {inner : Inner} {e : Expr}
    (h : suffixed max inner s = .ok (e, s')) (hs' : s'.tokens.head? ≠ some (.mark .equals))
    (hc : e.isCall = true) : assignment max inner s = .ok (.call e, s') := by
  unfold assignment
  rw [run_bind h, run_bind (run_accept_of_ne hs')]
  simp only [hc, if_true, Bool.false_eq_true, if_false]
  rfl

/-- A statement that starts with a name or a parenthesis. -/
theorem run_statement {inner : Inner} {stat : Stat}
    (hs : (∃ name, s.tokens.head? = some (.name name)) ∨
      s.tokens.head? = some (.mark .openParen))
    (h : assignment max inner s = .ok (stat, s')) :
    statement max inner s = .ok (some stat, s') := by
  unfold statement
  rw [run_bind (run_peek s)]
  rcases hs with ⟨name, hs⟩ | hs <;> (rw [hs]; exact run_map h)

/-- The assignment of a term, after its target. -/
theorem run_assigned {n k : Nat} {trailing : Bool} {cs : List Constant} {name : String}
    {target : Expr} {value : Term} (h : value.Writable n)
    (hname : s.tokens.head? = some (.name name))
    (hsuffixed : suffixed max (inner max levels) s = .ok (target, s.past k cs))
    (htarget : target.isTarget = true)
    (hs : (s.past k cs).tokens = .mark .equals :: (value.tokens trailing ++ rest))
    (hclosed : Closed rest) (hlocal : 0 < n → s.isLocal Term.slotTable = true)
    (hr : s.Room max (cs ++ value.constants)) (hl : value.height ≤ levels) :
    statement max (inner max levels) s = .ok (some (.assign target value.expr),
      s.past (k + 1 + (value.tokens trailing).length) (cs ++ value.constants)) := by
  have hs₁ : ((s.past k cs).past 1 []).tokens = value.tokens trailing ++ rest := by
    rw [State.tokens_past, hs]
    rfl
  have hvalue := run_term n trailing value h 0 hs₁ hclosed hlocal
    (State.room_past.2 (State.room_past.2 hr)) hl
  rw [run_statement (.inl ⟨name, hname⟩) (run_assignment hsuffixed hs htarget hvalue),
    State.past_past, State.past_past, List.nil_append, Nat.add_assoc]

/-- A key after the table in a slot. -/
theorem run_suffix_key {n : Nat} {trailing : Bool} {key : Term} {e : Expr} (h : key.Writable n)
    (hs : s.tokens = key.suffixTokens trailing ++ rest)
    (hlocal : 0 < n → s.isLocal Term.slotTable = true) (hr : s.Room max key.constants)
    (hl : key.height ≤ levels) : suffix max (inner max levels) e s =
      .ok (.inl (.index e key.expr),
        s.past (key.suffixTokens trailing).length key.constants) := by
  rw [Term.suffixTokens] at hs ⊢
  cases hk : key.bareName? with
  | some name =>
    rw [hk] at hs
    obtain rfl := eq_of_bareName? hk
    exact run_suffix_dot hs hr
  | none =>
    rw [hk] at hs
    have hs₁ : (s.past 1 []).tokens = key.tokens trailing ++ .mark .closeBracket :: rest := by
      rw [State.tokens_past, hs]
      simp
    have hkey := run_term n trailing key h 0 hs₁ (closed_mark rfl _) hlocal
      (State.room_past.2 hr) hl
    have := run_suffix_bracket max (e := e) hs hkey (State.tokens_past_of_eq hs₁ _)
    rw [this]
    simp [Nat.add_comm]

/-- The assignment of a term to a key, after the suffixes before the key. -/
theorem run_keyAssigned {n i j k : Nat} {trailing : Bool} {cs ds : List Constant} {name : String}
    {first e : Expr} {key value : Term} (hk : key.Writable n) (hv : value.Writable n)
    (hname : s.tokens.head? = some (.name name))
    (hprimary : primary max (inner max levels) s = .ok (first, s.past i cs))
    (hchain : Chain (suffix max (inner max levels)) j first (s.past i cs) e (s.past k ds))
    (hj : j < (s.past i cs).tokens.length)
    (hs : (s.past k ds).tokens =
      key.suffixTokens trailing ++ .mark .equals :: (value.tokens trailing ++ rest))
    (hclosed : Closed rest) (hlocal : 0 < n → s.isLocal Term.slotTable = true)
    (hr : s.Room max (ds ++ key.constants ++ value.constants)) (hkl : key.height ≤ levels)
    (hvl : value.height ≤ levels) :
    statement max (inner max levels) s = .ok (some (.assign (.index e key.expr) value.expr),
      s.past (k + (key.suffixTokens trailing).length + 1 + (value.tokens trailing).length)
        (ds ++ key.constants ++ value.constants)) := by
  have hroom : (s.past k ds).Room max (key.constants ++ value.constants) :=
    State.room_past.2 (by rwa [List.append_assoc] at hr)
  have hkey := run_suffix_key (e := e) hk hs hlocal hroom.left hkl
  have hs₁ := State.tokens_past_of_eq hs key.constants
  rw [State.past_past] at hkey hs₁
  have hsuffixed := run_suffixed hprimary (hchain.append (.next hkey .nil)) hj
    (hs₁ ▸ closed_mark rfl _)
  exact run_assigned hv hname hsuffixed rfl hs₁ hclosed hlocal hr hvl

/-- A fill statement is parsed to its statement. -/
theorem run_fill {n : Nat} {trailing : Bool} {f : Fill} (h : f.Writable n)
    (hs : s.tokens = f.tokens trailing ++ rest) (hclosed : Closed rest)
    (hlocal : s.isLocal Term.slotTable = true) (hr : s.Room max f.constants)
    (hl : f.height ≤ levels) : statement max (inner max levels) s =
      .ok (some f.stat, s.past (f.tokens trailing).length f.constants) := by
  have hkl : f.key.height ≤ levels := Nat.le_trans (Nat.le_max_left _ _) hl
  have hs₀ : s.tokens = Term.slotTokens f.slot ++ (f.key.suffixTokens trailing ++
      .mark .equals :: (f.value.tokens trailing ++ rest)) := by
    rw [hs, Fill.tokens]
    simp
  have hlength : 4 + (f.key.suffixTokens trailing).length + 1 + (f.value.tokens trailing).length =
      (f.tokens trailing).length := by
    simp only [Fill.tokens, Term.slotTokens, List.length_append, List.length_cons, List.length_nil]
    omega
  generalize hus : f.key.suffixTokens trailing ++ .mark .equals ::
    (f.value.tokens trailing ++ rest) = us at hs₀
  have hname : s.tokens = .name Term.slotTable :: ((Term.slotTokens f.slot).drop 1 ++ us) := hs₀
  have hopen : (s.past 1 []).tokens = (Term.slotTokens f.slot).drop 1 ++ us := by
    rw [State.tokens_past, hname]
    rfl
  have hroom : s.Room max ([naturalConstant f.slot] ++ (f.key.constants ++ f.value.constants)) := hr
  have hslot := run_suffix_slot (e := .name Term.slotTable) hopen (State.room_past.2 hroom.left)
    (Nat.le_trans (height_pos f.key) hkl)
  rw [State.past_past] at hslot
  rw [← hlength]
  exact run_keyAssigned h.key h.value (congrArg List.head? hname)
    (run_primary_local hname hlocal) (.next hslot .nil) (by rw [hopen]; simp [Term.slotTokens])
    (hus ▸ State.tokens_past_of_eq hs₀ _) hclosed (fun _ => hlocal) hr hkl
    (Nat.le_trans (Nat.le_max_right _ _) hl)

/-! ## Bindings -/

/-- A name that is no local variable is a constant, but for that of the environment. -/
theorem run_primary_global {inner : Inner} {name : String} (hs : s.tokens = .name name :: rest)
    (hlocal : s.isLocal name = false) (hne : name ≠ "_ENV") (hr : s.Room max [.string name]) :
    primary max inner s = .ok (.name name, s.past 1 [.string name]) := by
  have hget : (get : Parse State) (s.past 1 []) = .ok (s.past 1 [], s.past 1 []) := rfl
  have hconstant := run_addConstant (s := s.past 1 []) (State.room_past.2 hr)
  unfold primary
  rw [run_bind (run_peek s), hs]
  simp only [List.head?_cons]
  rw [run_bind (run_advance s), run_bind hget, State.isLocal_past, hlocal]
  simp only [bne_iff_ne, ne_eq, hne, not_false_eq_true, Bool.not_false, Bool.and_true, if_true]
  rw [run_bind hconstant, State.past_past]
  rfl

theorem run_primary_environment {inner : Inner} (hs : s.tokens = .name "_ENV" :: rest) :
    primary max inner s = .ok (.name "_ENV", s.past 1 []) := by
  have hget : (get : Parse State) (s.past 1 []) = .ok (s.past 1 [], s.past 1 []) := rfl
  unfold primary
  rw [run_bind (run_peek s), hs]
  simp only [List.head?_cons]
  rw [run_bind (run_advance s), run_bind hget]
  rfl

/-- The name that a binding is written under is that of its key, and no local variable. -/
theorem eq_of_globalName? {n : Nat} {b : Binding} {name : String}
    (h : b.globalName? n = some name) :
    b.key = .atom (.string name) ∧ name ≠ "_ENV" ∧ ¬(0 < n ∧ name = Term.slotTable) := by
  unfold Binding.globalName? at h
  split at h
  · rename_i bare hbare
    split at h
    · cases h
    · rename_i hnot
      cases h
      exact ⟨eq_of_bareName? hbare, fun h => hnot (.inl h), fun h => hnot (.inr h)⟩
  · cases h

/-- The name of a global variable, up to what is assigned to it. -/
theorem run_suffixed_global {inner : Inner} {name : String}
    (hs : s.tokens = .name name :: .mark .equals :: rest) (hlocal : s.isLocal name = false)
    (hne : name ≠ "_ENV") (hr : s.Room max [.string name]) :
    suffixed max inner s = .ok (.name name, s.past 1 [.string name]) := by
  refine run_suffixed (run_primary_global hs hlocal hne hr) .nil (Nat.zero_le _) ?_
  rw [State.tokens_past, hs]
  exact closed_mark rfl _

/-- The environment at a key, up to what is assigned to it. -/
theorem run_suffixed_environment {n : Nat} {trailing : Bool} {key : Term} (h : key.Writable n)
    (hs : s.tokens = .name "_ENV" :: .mark .openBracket :: (key.tokens trailing ++
      .mark .closeBracket :: .mark .equals :: rest))
    (hlocal : 0 < n → s.isLocal Term.slotTable = true) (hr : s.Room max key.constants)
    (hl : key.height ≤ levels) :
    suffixed max (inner max levels) s = .ok (.index (.name "_ENV") key.expr,
      s.past (2 + (key.tokens trailing).length + 1) key.constants) := by
  have hs₁ : (s.past 2 []).tokens =
      key.tokens trailing ++ .mark .closeBracket :: .mark .equals :: rest := by
    rw [State.tokens_past, hs]
    rfl
  have hkey := run_term n trailing key h 0 hs₁ (closed_mark rfl _) hlocal
    (State.room_past.2 hr) hl
  have hs₂ := State.tokens_past_of_eq hs₁ key.constants
  have hindex := run_suffix_bracket max (e := .name "_ENV") (s := s.past 1 [])
    (by rw [State.tokens_past, hs]; rfl) (by rw [State.past_past]; exact hkey) hs₂
  rw [State.past_past, State.past_past, List.append_nil, List.nil_append] at hindex
  refine run_suffixed (run_primary_environment hs) (.next hindex .nil) ?_ ?_
  · rw [State.tokens_past, hs]
    simp
  · rw [State.past_past] at hs₂
    rw [State.tokens_past, ← List.drop_drop, ← State.tokens_past s _ ([] ++ key.constants), hs₂]
    exact closed_mark rfl _

/-- A binding is parsed to its statement. -/
theorem run_binding {n : Nat} {trailing : Bool} {b : Binding} (h : b.Writable n)
    (hs : s.tokens = b.tokens trailing n ++ rest) (hclosed : Closed rest)
    (hlocal : 0 < n → s.isLocal Term.slotTable = true)
    (hglobal : ∀ name, s.isLocal name = true → 0 < n ∧ name = Term.slotTable)
    (hr : s.Room max b.constants) (hl : b.height ≤ levels) :
    statement max (inner max levels) s =
      .ok (some (b.stat n), s.past (b.tokens trailing n).length b.constants) := by
  have hkl : b.key.height ≤ levels := Nat.le_trans (Nat.le_max_left _ _) hl
  have hvl : b.value.height ≤ levels := Nat.le_trans (Nat.le_max_right _ _) hl
  cases hg : b.globalName? n with
  | some name =>
    obtain ⟨hkey, hne, hnl⟩ := eq_of_globalName? hg
    have hconstants : b.key.constants = [.string name] := by
      rw [hkey]
      rfl
    have htokens :
        b.tokens trailing n = .name name :: .mark .equals :: b.value.tokens trailing := by
      rw [Binding.tokens, hg]
      rfl
    have hs₀ : s.tokens = .name name :: .mark .equals :: (b.value.tokens trailing ++ rest) := by
      rw [hs, htokens]
      rfl
    have hnot : s.isLocal name = false :=
      Bool.eq_false_iff.2 fun hloc => hnl (hglobal name hloc)
    rw [Binding.constants, hconstants] at hr ⊢
    have hsuffixed :
        suffixed max (inner max levels) s = .ok (.name name, s.past 1 [.string name]) :=
      run_suffixed_global hs₀ hnot hne hr.left
    have hlength : (b.tokens trailing n).length = 1 + 1 + (b.value.tokens trailing).length := by
      rw [htokens, List.length_cons, List.length_cons]
      omega
    rw [Binding.stat, hg, hlength]
    exact run_assigned h.value (congrArg List.head? hs₀) hsuffixed rfl
      (by rw [State.tokens_past, hs₀]; rfl) hclosed hlocal hr hvl
  | none =>
    have hs₀ : s.tokens = .name "_ENV" :: .mark .openBracket :: (b.key.tokens trailing ++
        .mark .closeBracket :: .mark .equals :: (b.value.tokens trailing ++ rest)) := by
      rw [hs, Binding.tokens, hg]
      simp
    have hsuffixed := run_suffixed_environment h.key hs₀ hlocal hr.left hkl
    have hlength : (b.tokens trailing n).length =
        2 + (b.key.tokens trailing).length + 1 + 1 + (b.value.tokens trailing).length := by
      rw [Binding.tokens, hg]
      simp only [List.length_append, List.length_cons, List.length_nil]
      omega
    have hequals : (s.past (2 + (b.key.tokens trailing).length + 1) b.key.constants).tokens =
        .mark .equals :: (b.value.tokens trailing ++ rest) := by
      rw [State.tokens_past, hs₀, ← List.drop_drop, ← List.drop_drop]
      simp
    rw [Binding.stat, hg, hlength]
    exact run_assigned h.value (congrArg List.head? hs₀) hsuffixed rfl hequals hclosed hlocal hr hvl

/-! ## Sequences of statements -/

/-- A round of the statements of a block. -/
def statementsRound (max : Nat) (inner : Inner) (done : List Stat) :
    Parse (List Stat ⊕ List Stat) := do
  match ← peek with
  | none => return .inr done.reverse
  | some (.keyword "end") => return .inr done.reverse
  | some _ => return .inl (((← statement max inner).toList) ++ done)

theorem statements_eq (max : Nat) (inner : Inner) :
    statements max inner = rounds (statementsRound max inner) [] := rfl

theorem run_statementsRound {inner : Inner} (done : List Stat) {t : Token} {stat? : Option Stat}
    (hs : s.tokens = t :: ts) (ht : t ≠ .keyword "end")
    (h : statement max inner s = .ok (stat?, s')) :
    statementsRound max inner done s = .ok (.inl (stat?.toList ++ done), s') := by
  unfold statementsRound
  rw [run_bind (run_peek s), hs]
  simp only [List.head?_cons]
  rw [run_bind h]
  rfl

theorem run_statementsRound_last (max : Nat) (inner : Inner) (done : List Stat)
    (hs : s.tokens.head? = none ∨ s.tokens.head? = some (.keyword "end")) :
    statementsRound max inner done s = .ok (.inr done.reverse, s) := by
  unfold statementsRound
  rw [run_bind (run_peek s)]
  rcases hs with hs | hs <;> (rw [hs]; rfl)

/-- Assignments that are parsed one by one are parsed one after the other. -/
theorem chain_assignments {α : Type} {inner : Inner} {tokens : α → List Token}
    {constants : α → List Constant} {stat : α → Stat} {xs : List α}
    (hname : ∀ x ∈ xs, ∃ name us, tokens x = .name name :: us)
    (hstep : ∀ x ∈ xs, ∀ {s' : State} {rest : List Token}, s'.tokens = tokens x ++ rest →
      Closed rest → (∀ name, s'.isLocal name = s.isLocal name) → s'.Room max (constants x) →
      statement max inner s' = .ok (some (stat x), s'.past (tokens x).length (constants x)))
    (hs : s.tokens = xs.flatMap tokens ++ rest) (hclosed : Closed rest)
    (hr : s.Room max (xs.flatMap constants)) (done : List Stat) :
    Chain (statementsRound max inner) xs.length done s ((xs.map stat).reverse ++ done)
      (s.past (xs.flatMap tokens).length (xs.flatMap constants)) := by
  induction xs generalizing s done with
  | nil => exact .nil
  | cons x xs ih =>
    rw [List.flatMap_cons] at hr
    rw [List.flatMap_cons, List.append_assoc] at hs
    have hnext : Closed (xs.flatMap tokens ++ rest) := by
      cases xs with
      | nil => exact hclosed
      | cons y ys =>
        obtain ⟨name, us, hy⟩ := hname y (by simp)
        rw [List.flatMap_cons, hy]
        rintro t ⟨⟩
        rfl
    have hx := hstep x (List.mem_cons_self ..) hs hnext (fun _ => rfl) hr.left
    obtain ⟨name, us, hx'⟩ := hname x (List.mem_cons_self ..)
    have hround := run_statementsRound done (hs.trans (by rw [hx']; rfl)) (by simp) hx
    have hchain := ih (s := s.past (tokens x).length (constants x))
      (fun y hy => hname y (List.mem_cons_of_mem x hy))
      (fun y hy => hstep y (List.mem_cons_of_mem x hy)) (State.tokens_past_of_eq hs _)
      (State.room_past.2 hr) (stat x :: done)
    have := Chain.next hround hchain
    simpa [State.past_past] using this

/-- A group of fill statements is parsed to their statements. -/
theorem chain_fills {n : Nat} {trailing : Bool} {fs : List Fill} (h : ∀ f ∈ fs, f.Writable n)
    (hs : s.tokens = fs.flatMap (·.tokens trailing) ++ rest) (hclosed : Closed rest)
    (hlocal : 0 < n → s.isLocal Term.slotTable = true)
    (hr : s.Room max (Document.blockConstants fs)) (hl : ∀ f ∈ fs, f.height ≤ levels)
    (done : List Stat) :
    Chain (statementsRound max (inner max levels)) fs.length done s
      ((fs.map Fill.stat).reverse ++ done)
      (s.past (fs.flatMap (·.tokens trailing)).length (Document.blockConstants fs)) := by
  refine chain_assignments (fun f _ => ⟨Term.slotTable, _, rfl⟩) ?_ hs hclosed hr done
  intro f hf s' rest hs' hclosed' hlocal' hr'
  have hn : 0 < n := Nat.lt_of_lt_of_le (h f hf).slot.1 (h f hf).slot.2
  exact run_fill (h f hf) hs' hclosed' ((hlocal' _).trans (hlocal hn)) hr' (hl f hf)

theorem chain_bindings {n : Nat} {trailing : Bool} {bs : List Binding}
    (h : ∀ b ∈ bs, b.Writable n) (hs : s.tokens = bs.flatMap (·.tokens trailing n) ++ rest)
    (hclosed : Closed rest) (hlocal : 0 < n → s.isLocal Term.slotTable = true)
    (hglobal : ∀ name, s.isLocal name = true → 0 < n ∧ name = Term.slotTable)
    (hr : s.Room max (bs.flatMap Binding.constants)) (hl : ∀ b ∈ bs, b.height ≤ levels)
    (done : List Stat) :
    Chain (statementsRound max (inner max levels)) bs.length done s
      ((bs.map (·.stat n)).reverse ++ done)
      (s.past (bs.flatMap (·.tokens trailing n)).length (bs.flatMap Binding.constants)) := by
  refine chain_assignments ?_ ?_ hs hclosed hr done
  · intro b _
    cases hg : b.globalName? n with
    | some name => exact ⟨name, _, by rw [Binding.tokens, hg]; rfl⟩
    | none => exact ⟨"_ENV", _, by rw [Binding.tokens, hg]; rfl⟩
  · intro b hb s' rest hs' hclosed' hlocal' hr'
    exact run_binding (h b hb) hs' hclosed' (fun hn => (hlocal' _).trans (hlocal hn))
      (fun name hname => hglobal name ((hlocal' name).symm.trans hname)) hr' (hl b hb)

end Chunk.Parse

end LuaGraph
