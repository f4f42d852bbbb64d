import LuaGraph.Proofs.Chunk.Program
import LuaGraph.Proofs.Graph.Evaluation

/-!
# Running statements

The fill statements and the bindings of a document store copies of entries, each in the copy of its
table or in the environment. Fill statements are followed as a list of entries, each with the table
that it belongs to, so that it does not matter how they are grouped into blocks.

Results: `exec_fills`, `exec_blocks` and `exec_bindings`.
-/

namespace LuaGraph

open Chunk Run

/-! ## Sequences and assignments -/

section

variable {m m' m₁ m₂ m₃ : Machine}

theorem execAll_cons_eq (s : Stat) (ss : List Stat) :
    execAll (s :: ss) = (s.exec >>= fun _ => execAll ss) := by
  rw [execAll]

theorem execAll_nil (m : Machine) : execAll [] m = .ok () m := by
  rw [execAll]
  rfl

theorem execAll_cons {s : Stat} {ss : List Stat} (h : s.exec m = .ok () m') :
    execAll (s :: ss) m = execAll ss m' := by
  rw [execAll_cons_eq]
  exact run_bind h

theorem execAll_cons_error {s : Stat} {f : RunFault} (ss : List Stat) (h : s.exec m = .error f m') :
    execAll (s :: ss) m = .error f m' := by
  rw [execAll_cons_eq]
  show EStateM.bind s.exec (fun _ => execAll ss) m = _
  rw [EStateM.bind, h]

theorem execAll_append {ss ss' : List Stat} (h : execAll ss m = .ok () m') :
    execAll (ss ++ ss') m = execAll ss' m' := by
  induction ss generalizing m with
  | nil =>
    rw [execAll_nil] at h
    cases h
    rfl
  | cons s ss ih =>
    rw [List.cons_append]
    cases hs : s.exec m with
    | error e m₁ =>
      rw [execAll_cons_error ss hs] at h
      cases h
    | ok u m₁ =>
      rw [execAll_cons hs] at h ⊢
      exact ih h

/-- An assignment evaluates the value, then the table and then the key. -/
theorem exec_assign_index {object key value : Expr} {o k v : Value} (hv : value.eval m = .ok v m₁)
    (ho : object.eval m₁ = .ok o m₂) (hk : key.eval m₂ = .ok k m₃) :
    (Stat.assign (.index object key) value).exec m = assignIndex o k v m₃ := by
  rw [Stat.exec, run_bind hv]
  show (object.eval >>= fun o => key.eval >>= fun k => assignIndex o k v) m₁ = _
  rw [run_bind ho, run_bind hk]

theorem exec_assign_name {name : String} {value : Expr} {v : Value}
    (hv : value.eval m = .ok v m₁) :
    (Stat.assign (.name name) value).exec m = assignName name v m₁ := by
  rw [Stat.exec, run_bind hv]

end

section

variable {H : Heap} {slot? : TableId → Option Nat} {φ : TableId → TableId} {r : TableId}
  {depth : Nat} {m m' : Machine}

/-- The tables that are written out with an entry in a statement, where the value comes first. -/
def writtenBy (H : Heap) (slot? : TableId → Option Nat) (depth : Nat) (e : Entry) : List TableId :=
  writtenIn H slot? depth e.2 ++ writtenIn H slot? depth e.1

/-- What an entry needs to be stored: its terms are evaluated to copies, and its key is a key. -/
structure Storable (H : Heap) (slot? : TableId → Option Nat) (φ : TableId → TableId) (r : TableId)
    (depth : Nat) (e : Entry) : Prop where
  key : Evaluates H slot? φ r depth e.1
  value : Evaluates H slot? φ r depth e.2
  isKey : e.1.IsKey
  notHandle : e.1.isHandle = false

/-! ## Fill statements -/

/-- The fill statement for an entry of the table in a slot. -/
def fillOf (H : Heap) (slot? : TableId → Option Nat) (depth : Nat) (x : Nat × Entry) : Fill :=
  ⟨x.1, termOf H slot? depth x.2.1, termOf H slot? depth x.2.2⟩

/-- **A fill statement** stores a copy of an entry in the copy of its table. -/
theorem exec_fill {t : TableId} {i : Nat} {e : Entry} {pre : List Entry}
    (he : Storable H slot? φ r depth e) (ht : slot? t = some i) (hlt : φ t < m.heap.size)
    (hentries : (m.heap.table (φ t)).entries = copyOf φ pre)
    (hnew : e.1.copied φ ∉ pre.map fun e => e.1.copied φ)
    (hn : Numbers φ m.heap.size (writtenBy H slot? depth e)) (hs : Resolves slot? φ r m) :
    ∃ m', (fillOf H slot? depth (i, e)).stat.exec m = .ok () m' ∧
      Grows H φ (addedTo (φ t) (copyOf φ [e])) (writtenBy H slot? depth e) m m' ∧
      (m'.heap.table (φ t)).entries = copyOf φ (pre ++ [e]) := by
  obtain ⟨m₁, m₂, hvalue, hkey, hg, hs₁⟩ := he.value.both he.key hn hs
  obtain ⟨m₃, hset, hg₃, hentries₃⟩ := store_entry hg hlt hentries ⟨he.isKey, he.notHandle⟩ hnew hn
  refine ⟨m₃, ?_, hg₃, hentries₃⟩
  exact (exec_assign_index hvalue (eval_slot hs₁ ht) hkey).trans hset

/-- The fill statement for an entry with its table. -/
def fillFor (H : Heap) (slot? : TableId → Option Nat) (depth : Nat) (x : TableId × Entry) : Fill :=
  fillOf H slot? depth ((slot? x.1).getD 0, x.2)

/-- The entries that belong to a table. -/
def entriesFor (t : TableId) (xs : List (TableId × Entry)) : List Entry :=
  (xs.filter fun x => x.1 == t).map Prod.snd

theorem entriesFor_append (t : TableId) (xs ys : List (TableId × Entry)) :
    entriesFor t (xs ++ ys) = entriesFor t xs ++ entriesFor t ys := by
  simp [entriesFor]

/-- Copies of entries that are added to the copies of their tables. -/
def addedFor (φ : TableId → TableId) (xs : List (TableId × Entry)) (i : TableId) : List Entry :=
  xs.flatMap fun x => addedTo (φ x.1) (copyOf φ [x.2]) i

theorem addedFor_eq_nil {xs : List (TableId × Entry)} {i : TableId} (h : ∀ x ∈ xs, i ≠ φ x.1) :
    addedFor φ xs i = [] :=
  List.flatMap_eq_nil_iff.2 fun x hx => addedTo_of_ne (h x hx) _

/-- The tables that are written out with entries in statements. -/
def writtenFor (H : Heap) (slot? : TableId → Option Nat) (depth : Nat)
    (xs : List (TableId × Entry)) : List TableId :=
  xs.flatMap fun x => writtenBy H slot? depth x.2

/-- What the fill statements for some entries with their tables need: the entries can be stored,
each in a table with a slot, and no table gets a key twice. -/
structure Fillable (H : Heap) (slot? : TableId → Option Nat) (φ : TableId → TableId) (r : TableId)
    (depth : Nat) (xs : List (TableId × Entry)) : Prop where
  storable : ∀ x ∈ xs, Storable H slot? φ r depth x.2
  slot : ∀ x ∈ xs, (slot? x.1).isSome = true
  nodup : ∀ t, ((entriesFor t xs).map fun e => e.1.copied φ).Nodup

theorem Fillable.left {xs ys : List (TableId × Entry)}
    (h : Fillable H slot? φ r depth (xs ++ ys)) : Fillable H slot? φ r depth xs where
  storable x hx := h.storable x (List.mem_append_left _ hx)
  slot x hx := h.slot x (List.mem_append_left _ hx)
  nodup t := by
    have := h.nodup t
    rw [entriesFor_append, List.map_append] at this
    exact (List.nodup_append.1 this).1

/-- The tables with a slot have copies of their own, with copies of what belongs to them so far. -/
structure Filled (slot? : TableId → Option Nat) (φ : TableId → TableId) (r : TableId)
    (pre : List (TableId × Entry)) (m : Machine) : Prop where
  lt : ∀ t, (slot? t).isSome = true → φ t < m.heap.size
  ne : ∀ t, (slot? t).isSome = true → r ≠ φ t
  inj : ∀ t u, (slot? t).isSome = true → (slot? u).isSome = true → φ t = φ u → t = u
  entries : ∀ t, (slot? t).isSome = true →
    (m.heap.table (φ t)).entries = copyOf φ (entriesFor t pre)

theorem Filled.added_ne {pre xs : List (TableId × Entry)} (h : Filled slot? φ r pre m)
    (hx : ∀ x ∈ xs, (slot? x.1).isSome = true) : addedFor φ xs r = [] :=
  addedFor_eq_nil fun x hx' => h.ne x.1 (hx x hx')

/-- Once an entry is stored in the copy of its table, it belongs there too. -/
theorem Filled.stored {pre : List (TableId × Entry)} {x : TableId × Entry} {ts : List TableId}
    (h : Filled slot? φ r pre m) (hslot : (slot? x.1).isSome = true)
    (hg : Grows H φ (addedTo (φ x.1) (copyOf φ [x.2])) ts m m')
    (hentries : (m'.heap.table (φ x.1)).entries = copyOf φ (entriesFor x.1 pre ++ [x.2])) :
    Filled slot? φ r (pre ++ [x]) m' where
  lt t ht := Nat.lt_of_lt_of_le (h.lt t ht) hg.size_le
  ne := h.ne
  inj := h.inj
  entries t ht := by
    rw [entriesFor_append]
    by_cases htx : t = x.1
    · subst htx
      rw [hentries]
      simp [entriesFor]
    · have hne : φ t ≠ φ x.1 := fun heq => htx (h.inj t x.1 ht hslot heq)
      have hnone : entriesFor t [x] = [] := by simp [entriesFor, Ne.symm htx]
      rw [hg.entries _ (h.lt t ht), h.entries t ht, addedTo_of_ne hne, hnone, List.append_nil,
        List.append_nil]

/-- **Fill statements** store copies of entries in the copies of their tables. -/
theorem exec_fills {pre xs : List (TableId × Entry)} (h : Fillable H slot? φ r depth (pre ++ xs))
    (hf : Filled slot? φ r pre m) (hn : Numbers φ m.heap.size (writtenFor H slot? depth xs))
    (hs : Resolves slot? φ r m) :
    ∃ m', execAll (xs.map fun x => (fillFor H slot? depth x).stat) m = .ok () m' ∧
      Grows H φ (addedFor φ xs) (writtenFor H slot? depth xs) m m' ∧
      Filled slot? φ r (pre ++ xs) m' := by
  induction xs generalizing m pre with
  | nil =>
    rw [List.append_nil]
    exact ⟨m, execAll_nil m, .refl m, hf⟩
  | cons x xs ih =>
    have hx : x ∈ pre ++ x :: xs := List.mem_append_right _ (List.mem_cons_self ..)
    have hslot := h.slot x hx
    obtain ⟨i, hi⟩ := Option.isSome_iff_exists.1 hslot
    have hn' : Numbers φ m.heap.size (writtenBy H slot? depth x.2 ++ writtenFor H slot? depth xs) :=
      hn
    obtain ⟨hn₁, hn₂⟩ := Numbers.append.1 hn'
    have hnew : x.2.1.copied φ ∉ (entriesFor x.1 pre).map fun e => e.1.copied φ := by
      have hnodup := h.nodup x.1
      have hself : entriesFor x.1 (x :: xs) = x.2 :: entriesFor x.1 xs := by
        simp [entriesFor]
      rw [entriesFor_append, hself] at hnodup
      exact notMem_of_nodup hnodup
    obtain ⟨m₁, hexec, hg₁, hentries₁⟩ := exec_fill (h.storable x hx) hi (hf.lt _ hslot)
      (hf.entries _ hslot) hnew hn₁ hs
    rw [List.append_cons] at h ⊢
    obtain ⟨m₂, hexecs, hg₂, hf₂⟩ := ih h (hf.stored hslot hg₁ hentries₁) (by rwa [hg₁.size])
      (hs.grows hg₁ fun t j ht => addedTo_of_ne (hf.ne _ hslot) _)
    refine ⟨m₂, ?_, ?_, hf₂⟩
    · have hfill : fillFor H slot? depth x = fillOf H slot? depth (i, x.2) := by
        rw [fillFor, hi, Option.getD_some]
      rw [List.map_cons, hfill, execAll_cons hexec]
      exact hexecs
    · refine hg₁.trans hg₂ hn₁ fun j hj => addedFor_eq_nil fun y hy => ?_
      have := hf.lt y.1 (h.slot y (List.mem_append_right _ hy))
      exact Nat.ne_of_gt (Nat.lt_of_lt_of_le this hj)

/-! ## Blocks -/

/-- A function block runs its statements in a scope of its own. -/
theorem exec_block {body : List Stat}
    (h : execAll body { m with scopes := [] :: m.scopes } = .ok () m') :
    (Stat.call (.call (.function body) [])).exec m =
      .ok () { m' with scopes := m'.scopes.drop 1 } := by
  have hscope : inScope [] (execAll body) m = .ok () { m' with scopes := m'.scopes.drop 1 } := by
    unfold inScope
    rw [h]
  have hargs : evalAll [] m = .ok () m := by
    rw [evalAll]
    rfl
  have hcall : (Expr.call (.function body) []).eval m =
      .ok .nil { m' with scopes := m'.scopes.drop 1 } := by
    rw [Expr.eval, run_bind hargs]
    show (inScope [] (execAll body) >>= fun _ => pure Value.nil) m = _
    rw [run_bind hscope]
    rfl
  rw [Stat.exec, run_bind hcall]
  rfl

theorem writtenFor_append (xs ys : List (TableId × Entry)) :
    writtenFor H slot? depth (xs ++ ys) =
      writtenFor H slot? depth xs ++ writtenFor H slot? depth ys :=
  List.flatMap_append

theorem addedFor_append (xs ys : List (TableId × Entry)) :
    addedFor φ (xs ++ ys) = fun i => addedFor φ xs i ++ addedFor φ ys i := by
  funext i
  exact List.flatMap_append

/-- The statements of a group of fill statements do what the fill statements do. -/
theorem exec_fillBlock (split : Bool) {pre xs : List (TableId × Entry)}
    (h : Fillable H slot? φ r depth (pre ++ xs)) (hf : Filled slot? φ r pre m)
    (hn : Numbers φ m.heap.size (writtenFor H slot? depth xs)) (hs : Resolves slot? φ r m) :
    ∃ m', execAll (Document.blockStats split (xs.map (fillFor H slot? depth))) m = .ok () m' ∧
      Grows H φ (addedFor φ xs) (writtenFor H slot? depth xs) m m' ∧
      Filled slot? φ r (pre ++ xs) m' := by
  have hbody : (xs.map (fillFor H slot? depth)).map Fill.stat =
      xs.map fun x => (fillFor H slot? depth x).stat := by rw [List.map_map]; rfl
  unfold Document.blockStats
  rw [hbody]
  cases split with
  | false => exact exec_fills h hf hn hs
  | true =>
    have hs' : Resolves slot? φ r { m with scopes := [] :: m.scopes } := hs
    have hf' : Filled slot? φ r pre { m with scopes := [] :: m.scopes } :=
      ⟨hf.lt, hf.ne, hf.inj, hf.entries⟩
    obtain ⟨m', hexec, hg, hfilled⟩ := exec_fills h hf' hn hs'
    refine ⟨{ m' with scopes := m'.scopes.drop 1 }, ?_,
      ⟨hg.size, hg.entries, hg.copies, hg.environment, ?_⟩,
      ⟨hfilled.lt, hfilled.ne, hfilled.inj, hfilled.entries⟩⟩
    · rw [if_pos rfl, execAll_cons (exec_block hexec), execAll_nil]
    · show m'.scopes.drop 1 = m.scopes
      rw [hg.scopes]
      rfl

/-- **Fill statements in groups** do the same as in one sequence. -/
theorem exec_blocks (split : Bool) {xss : List (List (TableId × Entry))}
    {pre : List (TableId × Entry)} (h : Fillable H slot? φ r depth (pre ++ xss.flatten))
    (hf : Filled slot? φ r pre m)
    (hn : Numbers φ m.heap.size (writtenFor H slot? depth xss.flatten))
    (hs : Resolves slot? φ r m) :
    ∃ m', execAll (xss.flatMap fun xs =>
        Document.blockStats split (xs.map (fillFor H slot? depth))) m = .ok () m' ∧
      Grows H φ (addedFor φ xss.flatten) (writtenFor H slot? depth xss.flatten) m m' ∧
      Filled slot? φ r (pre ++ xss.flatten) m' := by
  induction xss generalizing m pre with
  | nil =>
    rw [List.flatten_nil, List.append_nil]
    exact ⟨m, execAll_nil m, .refl m, hf⟩
  | cons xs xss ih =>
    rw [List.flatten_cons] at h hn ⊢
    rw [← List.append_assoc] at h ⊢
    rw [writtenFor_append] at hn ⊢
    obtain ⟨hn₁, hn₂⟩ := Numbers.append.1 hn
    have hslot (x : TableId × Entry) (hx : x ∈ xs ∨ x ∈ xss.flatten) :
        (slot? x.1).isSome = true := by
      refine h.slot x ?_
      rw [List.append_assoc]
      exact List.mem_append_right _ (List.mem_append.2 hx)
    obtain ⟨m₁, hexec, hg₁, hf₁⟩ := exec_fillBlock split (h.left) hf hn₁ hs
    obtain ⟨m₂, hexecs, hg₂, hf₂⟩ := ih h hf₁ (by rwa [hg₁.size])
      (hs.grows hg₁ fun _ _ _ => hf.added_ne fun x hx => hslot x (.inl hx))
    refine ⟨m₂, ?_, ?_, hf₂⟩
    · rw [List.flatMap_cons, execAll_append hexec]
      exact hexecs
    · rw [addedFor_append]
      refine hg₁.trans hg₂ hn₁ fun j hj => addedFor_eq_nil fun x hx => ?_
      exact Nat.ne_of_gt (Nat.lt_of_lt_of_le (hf.lt x.1 (hslot x (.inr hx))) hj)

/-! ## Bindings -/

/-- The binding of an entry. -/
def bindingOf (H : Heap) (slot? : TableId → Option Nat) (depth : Nat) (e : Entry) : Binding :=
  ⟨termOf H slot? depth e.1, termOf H slot? depth e.2⟩

/-- No name is a local variable, except that of the table of slots if there are any. -/
def OnlySlots (n : Nat) (m : Machine) : Prop :=
  ∀ name, ¬(0 < n ∧ name = Term.slotTable) → local? m.scopes name = none

theorem eq_string_of_termOf {v : Value} {name : String}
    (hterm : termOf H slot? depth v = .atom (.string name)) : v = .string name := by
  cases v with
  | table t =>
    cases ht : slot? t with
    | some i =>
      rw [termOf_slot ht] at hterm
      cases hterm
    | none =>
      cases depth with
      | zero =>
        rw [termOf_zero ht] at hterm
        cases hterm
      | succ depth =>
        rw [termOf_succ ht] at hterm
        cases hterm
  | string s =>
    rw [termOf_atom rfl] at hterm
    cases hterm
    rfl
  | _ =>
    rw [termOf_atom rfl] at hterm
    cases hterm

theorem run_assignName {name : String} {v : Value} (hl : local? m.scopes name = none)
    (hn : name ≠ "_ENV") : assignName name v m = setEntry m.environment (.string name) v m := by
  unfold assignName
  rw [run_bind (show (get : Run Machine) m = .ok m m from rfl), hl]
  simp only [Option.isSome_none, Bool.false_eq_true, if_false, if_neg hn]

theorem eval_environment (hl : local? m.scopes "_ENV" = none) :
    (Expr.name "_ENV").eval m = .ok (.table m.environment) m := by
  rw [Expr.eval]
  unfold lookup
  rw [run_bind (show (get : Run Machine) m = .ok m m from rfl), hl]
  rfl

/-- **A binding** stores a copy of an entry in the environment. -/
theorem exec_binding {n : Nat} {e : Entry} {pre : List Entry}
    (he : Storable H slot? φ r depth e) (hlt : m.environment < m.heap.size)
    (hentries : (m.heap.table m.environment).entries = copyOf φ pre)
    (hnew : e.1.copied φ ∉ pre.map fun e => e.1.copied φ)
    (hn : Numbers φ m.heap.size (writtenBy H slot? depth e)) (hs : Resolves slot? φ r m)
    (hl : OnlySlots n m) :
    ∃ m', ((bindingOf H slot? depth e).stat n).exec m = .ok () m' ∧
      Grows H φ (addedTo m.environment (copyOf φ [e])) (writtenBy H slot? depth e) m m' ∧
      (m'.heap.table m.environment).entries = copyOf φ (pre ++ [e]) := by
  obtain ⟨m₁, m₂, hvalue, hkey, hg, hs₁⟩ := he.value.both he.key hn hs
  obtain ⟨m₃, hset, hg₃, hentries₃⟩ := store_entry hg hlt hentries ⟨he.isKey, he.notHandle⟩ hnew hn
  refine ⟨m₃, ?_, hg₃, hentries₃⟩
  have hg₁ : m₁.scopes = m.scopes ∧ m₁.environment = m.environment := by
    obtain ⟨m₁', hvalue', hg₁⟩ := he.value m (Numbers.append.1 hn).1 hs
    rw [hvalue] at hvalue'
    cases hvalue'
    exact ⟨hg₁.scopes, hg₁.environment⟩
  unfold Binding.stat
  cases hname : (bindingOf H slot? depth e).globalName? n with
  | some name =>
    obtain ⟨hterm, hne, hnot⟩ := Parse.eq_of_globalName? hname
    have hstring : e.1 = .string name := eq_string_of_termOf hterm
    have hsame : m₂ = m₁ := by
      rw [hstring, termOf_atom rfl] at hkey
      rw [show (Term.atom (.string name)).expr.eval m₁ = .ok (.string name) m₁ from
        eval_atom (v := .string name) rfl φ m₁] at hkey
      cases hkey
      rfl
    refine (exec_assign_name hvalue).trans ?_
    rw [run_assignName (by rw [hg₁.1]; exact hl name hnot) hne, hg₁.2, ← hsame]
    rw [hstring] at hset
    exact hset
  | none =>
    have henv := eval_environment (m := m₁)
      (by rw [hg₁.1]; exact hl _ fun h => absurd h.2 (by decide))
    rw [hg₁.2] at henv
    exact (exec_assign_index hvalue henv hkey).trans hset

/-- **Bindings** store copies of entries in the environment, one after the other. -/
theorem exec_bindings {n : Nat} {es pre : List Entry}
    (he : ∀ e ∈ es, Storable H slot? φ r depth e)
    (hnodup : ((pre ++ es).map fun e => e.1.copied φ).Nodup) (hlt : m.environment < m.heap.size)
    (hr : ∀ t i, slot? t = some i → r ≠ m.environment)
    (hentries : (m.heap.table m.environment).entries = copyOf φ pre)
    (hn : Numbers φ m.heap.size (es.flatMap (writtenBy H slot? depth)))
    (hs : Resolves slot? φ r m) (hl : OnlySlots n m) :
    ∃ m', execAll (es.map fun e => (bindingOf H slot? depth e).stat n) m = .ok () m' ∧
      Grows H φ (addedTo m.environment (copyOf φ es)) (es.flatMap (writtenBy H slot? depth))
        m m' := by
  induction es generalizing m pre with
  | nil =>
    rw [show copyOf φ [] = [] from rfl, addedTo_nil]
    exact ⟨m, execAll_nil m, .refl m⟩
  | cons e es ih =>
    rw [List.flatMap_cons] at hn ⊢
    obtain ⟨hn₁, hn₂⟩ := Numbers.append.1 hn
    obtain ⟨m₁, hexec, hg₁, hentries₁⟩ := exec_binding (he e (List.mem_cons_self ..)) hlt hentries
      (notMem_of_nodup hnodup) hn₁ hs hl
    have henv := hg₁.environment
    have hl₁ : OnlySlots n m₁ := fun name hname => by
      rw [hg₁.scopes]
      exact hl name hname
    rw [← henv] at hentries₁
    obtain ⟨m₂, hexecs, hg₂⟩ := ih (fun e h => he e (List.mem_cons_of_mem _ h))
      (by simpa using hnodup) (by rw [henv]; exact Nat.lt_of_lt_of_le hlt hg₁.size_le)
      (by rw [henv]; exact hr) hentries₁ (by rwa [hg₁.size])
      (hs.grows hg₁ fun t i ht => addedTo_of_ne (hr t i ht) _) hl₁
    refine ⟨m₂, ?_, ?_⟩
    · rw [List.map_cons, execAll_cons hexec]
      exact hexecs
    · rw [henv] at hg₂
      exact hg₁.addedTo_cons hg₂ hn₁ hlt

end

end LuaGraph
