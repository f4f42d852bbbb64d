import LuaGraph.Proofs.Graph.Evaluation

/-!
# Sketches that are given up

A writer that refuses (`Writer::inline`) looks for three reasons to give up while it writes: a table
that it met before, a table below the greatest depth, and a text that has got too long. It gets
through a value exactly if no table is met twice, none is too deep and the text is short enough;
then it has added the compact text of the value, and met the tables in it.

`Writes` says this of a part of a writer, with a rule for every way in which parts are put together.
Listings are at hand here, as they are where no sort panics.

Results: **`writes_value`** and `checked_value`.
-/

namespace LuaGraph

namespace Sketch

/-! ## What a part of the writer does -/

/-- The sketch with more text and more tables. -/
def add (k : Sketch) (s : String) (ts : List TableId) : Sketch where
  text := k.text ++ s
  met := ts.foldl (·.insert ·) k.met

/-- The tables are different, and none of them was met before. -/
structure Fresh (k : Sketch) (ts : List TableId) : Prop where
  nodup : ts.Nodup
  unmet : ∀ t ∈ ts, t ∉ k.met

section

variable {k : Sketch} {s s' : String} {ts ts' : List TableId} {t : TableId}

theorem mem_met_add : t ∈ (k.add s ts).met ↔ t ∈ ts ∨ t ∈ k.met := by
  unfold add
  dsimp only
  generalize k.met = met
  induction ts generalizing met with
  | nil => simp
  | cons u ts ih =>
    rw [List.foldl_cons, ih, Std.TreeSet.mem_insert, Std.compare_eq_iff_eq, List.mem_cons,
      or_left_comm, or_assoc, eq_comm]

theorem add_nil (k : Sketch) : k.add "" [] = k := by
  unfold add
  rw [String.append_empty]
  rfl

theorem add_add (k : Sketch) (s s' : String) (ts ts' : List TableId) :
    (k.add s ts).add s' ts' = k.add (s ++ s') (ts ++ ts') := by
  unfold add
  rw [String.append_assoc, List.foldl_append]

theorem fresh_nil (k : Sketch) : k.Fresh [] := ⟨.nil, fun _ h => absurd h List.not_mem_nil⟩

theorem fresh_append : k.Fresh (ts ++ ts') ↔ k.Fresh ts ∧ (k.add s ts).Fresh ts' := by
  constructor
  · rintro ⟨hnodup, hunmet⟩
    obtain ⟨h, h', hdisjoint⟩ := List.nodup_append.1 hnodup
    refine ⟨⟨h, fun t ht => hunmet t (List.mem_append_left _ ht)⟩, h', fun t ht hmem => ?_⟩
    rcases mem_met_add.1 hmem with hmem | hmem
    · exact hdisjoint t hmem t ht rfl
    · exact hunmet t (List.mem_append_right _ ht) hmem
  · rintro ⟨⟨h, hunmet⟩, h', hunmet'⟩
    refine ⟨List.nodup_append.2 ⟨h, h', fun t ht u hu heq => ?_⟩, fun t ht => ?_⟩
    · exact hunmet' u hu (mem_met_add.2 (.inl (heq ▸ ht)))
    · rcases List.mem_append.1 ht with ht | ht
      · exact hunmet t ht
      · exact fun hmem => hunmet' t ht (mem_met_add.2 (.inr hmem))

end

/-- What a part of a writer comes to. -/
def result (p : Draw Id Unit) (k : Sketch) : Except Error Unit × Sketch := p.run.run k

/-- **A part of a writer that refuses adds a text and some tables**: it gets through, if it is
sound, the tables are fresh and the text is short enough with it; and nothing else gets through.
Only where the tables are not fresh does it find that something is no tree. -/
structure Writes (limit : Nat) (p : Draw Id Unit) (s : String) (ts : List TableId) (sound : Prop) :
    Prop where
  run : ∀ k : Sketch, sound → k.Fresh ts → (k.text ++ s).utf8ByteSize ≤ limit →
    result p k = (.ok (), k.add s ts)
  of_run : ∀ k k' : Sketch, result p k = (.ok (), k') → sound ∧ k.Fresh ts ∧ k' = k.add s ts
  not_fresh : ∀ k k' : Sketch, result p k = (.error .notATree, k') → ¬ k.Fresh ts

/-- A part of a writer that looks at the length of the text at the end. -/
def Checked (limit : Nat) (p : Draw Id Unit) : Prop :=
  ∀ k k' : Sketch, result p k = (.ok (), k') → k'.text.utf8ByteSize ≤ limit

theorem result_bind (p q : Draw Id Unit) (k : Sketch) :
    result (p >>= fun _ => q) k = match result p k with
      | (.ok _, k') => result q k'
      | (.error e, k') => (.error e, k') := by
  refine (run_bind p (fun _ => q) k).trans ?_
  show _ = match (p.run.run k : Except Error Unit × Sketch) with
    | (.ok _, k') => result q k'
    | (.error e, k') => (.error e, k')
  rcases (p.run.run k : Except Error Unit × Sketch) with ⟨e | u, k'⟩ <;> rfl

/-- A run of two parts is a run of the first and then of the second. -/
theorem bind_eq_ok {p q : Draw Id Unit} {k k' : Sketch} :
    result (p >>= fun _ => q) k = (.ok (), k') ↔
      ∃ k₁, result p k = (.ok (), k₁) ∧ result q k₁ = (.ok (), k') := by
  rw [result_bind]
  rcases result p k with ⟨e | u, k₁⟩ <;> simp

/-- A run of two parts stops where one of them does. -/
theorem bind_eq_error {p q : Draw Id Unit} {k k' : Sketch} {e : Error} :
    result (p >>= fun _ => q) k = (.error e, k') ↔ result p k = (.error e, k') ∨
      ∃ k₁, result p k = (.ok (), k₁) ∧ result q k₁ = (.error e, k') := by
  rw [result_bind]
  rcases result p k with ⟨e' | u, k₁⟩ <;> simp

theorem result_check (m : Manner) (k : Sketch) : result (check m) k =
    if m.limit < k.text.utf8ByteSize then (.error (.tooLarge m.limit), k) else (.ok (), k) := by
  show result (if m.limit < k.text.utf8ByteSize then throw (.tooLarge m.limit) else pure ()) k = _
  split <;> rfl

theorem Checked.bind {limit : Nat} {q : Draw Id Unit} (p : Draw Id Unit) (h : Checked limit q) :
    Checked limit (p >>= fun _ => q) := by
  intro k k' hrun
  obtain ⟨k₁, -, hq⟩ := bind_eq_ok.1 hrun
  exact h k₁ k' hq

namespace Writes

variable {limit : Nat} {p q : Draw Id Unit} {s s' : String} {ts ts' : List TableId} {A B : Prop}

theorem bind (hp : Writes limit p s ts A) (hq : Writes limit q s' ts' B) :
    Writes limit (p >>= fun _ => q) (s ++ s') (ts ++ ts') (A ∧ B) where
  run k hsound hfresh hlimit := by
    obtain ⟨hfresh₁, hfresh₂⟩ := (fresh_append (s := s)).1 hfresh
    have hsize : (k.text ++ (s ++ s')).utf8ByteSize =
        (k.text ++ s).utf8ByteSize + s'.utf8ByteSize := by
      rw [← String.append_assoc, String.utf8ByteSize_append]
    refine bind_eq_ok.2 ⟨k.add s ts, hp.run k hsound.1 hfresh₁ (by omega), ?_⟩
    rw [← add_add]
    exact hq.run _ hsound.2 hfresh₂ (by rwa [add, String.append_assoc])
  of_run k k' hrun := by
    obtain ⟨k₁, hrun₁, hrun₂⟩ := bind_eq_ok.1 hrun
    obtain ⟨hA, hfresh₁, rfl⟩ := hp.of_run k k₁ hrun₁
    obtain ⟨hB, hfresh₂, rfl⟩ := hq.of_run _ k' hrun₂
    exact ⟨⟨hA, hB⟩, fresh_append.2 ⟨hfresh₁, hfresh₂⟩, add_add ..⟩
  not_fresh k k' hrun hfresh := by
    obtain ⟨hfresh₁, hfresh₂⟩ := (fresh_append (s := s)).1 hfresh
    rcases bind_eq_error.1 hrun with hrun | ⟨k₁, hrun₁, hrun₂⟩
    · exact hp.not_fresh k k' hrun hfresh₁
    · obtain ⟨-, -, rfl⟩ := hp.of_run k k₁ hrun₁
      exact hq.not_fresh _ k' hrun₂ hfresh₂

theorem emit (limit : Nat) (s : String) : Writes limit (emit s) s [] True where
  run _ _ _ _ := rfl
  of_run k k' hrun := by
    cases hrun
    exact ⟨trivial, fresh_nil k, rfl⟩
  not_fresh _ _ hrun := nomatch hrun

theorem nothing (limit : Nat) : Writes limit (pure ()) "" [] True where
  run k _ _ _ := by
    rw [add_nil]
    rfl
  of_run k k' hrun := by
    cases hrun
    exact ⟨trivial, fresh_nil k, (add_nil k).symm⟩
  not_fresh _ _ hrun := nomatch hrun

theorem refuse (limit : Nat) {e : Error} (he : e ≠ .notATree) (s : String) (ts : List TableId) :
    Writes limit (throw e) s ts False where
  run _ h := h.elim
  of_run _ _ hrun := nomatch hrun
  not_fresh k k' hrun := by
    cases hrun
    exact absurd rfl he

theorem congr (h : Writes limit p s ts A) (hs : s = s') (hts : ts = ts') (hAB : A ↔ B) :
    Writes limit p s' ts' B := by
  subst hs hts
  rwa [← propext hAB]

theorem check (m : Manner) : Writes m.limit (check m) "" [] True where
  run k _ _ hlimit := by
    rw [String.append_empty] at hlimit
    rw [add_nil, result_check, if_neg (Nat.not_lt.2 hlimit)]
  of_run k k' hrun := by
    rw [result_check] at hrun
    split at hrun
    · cases hrun
    · cases hrun
      exact ⟨trivial, fresh_nil k, (add_nil k).symm⟩
  not_fresh k k' hrun := by
    rw [result_check] at hrun
    split at hrun <;> cases hrun

end Writes

theorem checked_check (m : Manner) : Checked m.limit (check m) := by
  intro k k' hrun
  rw [result_check] at hrun
  split at hrun
  · cases hrun
  · cases hrun
    omega

theorem checked_throw (limit : Nat) (e : Error) : Checked limit (throw e) :=
  fun _ _ hrun => nomatch hrun

/-! ## Parts with commas between them -/

section

variable {α : Type} {limit : Nat} {write : α → Draw Id Unit} {text : α → String}
  {tables : α → List TableId} {sound : α → Prop}

theorem intercalate_cons (s : String) (xs : List α) :
    ", ".intercalate (s :: xs.map text) = s ++ String.join (xs.map fun x => ", " ++ text x) := by
  induction xs generalizing s with
  | nil =>
    rw [List.map_nil, String.intercalate_singleton, List.map_nil, String.join_nil,
      String.append_empty]
  | cons x xs ih =>
    rw [List.map_cons, String.intercalate_cons_cons, ih, List.map_cons, String.join_cons,
      ← String.append_assoc, ← String.append_assoc, ← String.append_assoc]

theorem writes_rest (xs : List α)
    (h : ∀ x ∈ xs, Writes limit (write x) (text x) (tables x) (sound x)) :
    Writes limit ((xs.map write).forM fun p => do emit ", "; p)
      (String.join (xs.map fun x => ", " ++ text x)) (xs.flatMap tables) (∀ x ∈ xs, sound x) := by
  induction xs with
  | nil =>
    exact (Writes.nothing limit).congr rfl rfl (iff_of_true trivial (List.forall_mem_nil _))
  | cons x xs ih =>
    obtain ⟨hx, hxs⟩ := List.forall_mem_cons.1 h
    refine (((Writes.emit limit ", ").bind hx).bind (ih hxs)).congr ?_ ?_ ?_
    · rw [List.map_cons, String.join_cons]
    · rw [List.nil_append, List.flatMap_cons]
    · rw [true_and, List.forall_mem_cons]

/-- **Parts are written with commas between them.** -/
theorem writes_separated (xs : List α)
    (h : ∀ x ∈ xs, Writes limit (write x) (text x) (tables x) (sound x)) :
    Writes limit (separated (xs.map write)) (", ".intercalate (xs.map text)) (xs.flatMap tables)
      (∀ x ∈ xs, sound x) := by
  cases xs with
  | nil =>
    exact (Writes.nothing limit).congr rfl rfl (iff_of_true trivial (List.forall_mem_nil _))
  | cons x xs =>
    obtain ⟨hx, hxs⟩ := List.forall_mem_cons.1 h
    refine (hx.bind (writes_rest xs hxs)).congr ?_ ?_ ?_
    · rw [List.map_cons, intercalate_cons]
    · rw [List.flatMap_cons]
    · rw [List.forall_mem_cons]

end

/-! ## Values -/

section

variable {H : Heap} {m : Manner} {depth : Nat}

/-- The compact text of a value down to a depth, at a level. -/
def plainText (H : Heap) (depth level : Nat) (v : Value) : String :=
  (termOf H (fun _ => none) depth v).text .compact level

/-- The tables met in a value down to a depth. -/
abbrev metIn (H : Heap) (depth : Nat) (v : Value) : List TableId :=
  writtenIn H (fun _ => none) depth v

/-- No table in a value is below a depth. -/
def Reaches (H : Heap) (depth : Nat) (v : Value) : Prop :=
  (termOf H (fun _ => none) depth v).isTooDeep = false

/-- The writer of values adds their compact texts and their tables. -/
def WritesValues (m : Manner) (H : Heap) (depth level : Nat) (write : Value → Draw Id Unit) :
    Prop :=
  ∀ v, Writes m.limit (write v) (plainText H depth level v) (metIn H depth v) (Reaches H depth v)

variable {level : Nat} {write : Value → Draw Id Unit}

theorem metIn_atom {v : Value} {a : Atom} (hv : v.view = .inl a) : metIn H depth v = [] := by
  cases v with
  | table t => cases hv
  | _ => rfl

theorem bareName?_table {v : Value} {t : TableId} (hv : v.view = .inr t) :
    (termOf H (fun _ => none) depth v).bareName? = none := by
  unfold termOf Term.ofValue
  rw [hv]
  cases depth <;> rfl

theorem writes_field (h : WritesValues m H depth level write) (e : Entry) :
    Writes m.limit (field write e)
      (Term.fieldText .compact level
        (.pair (termOf H (fun _ => none) depth e.1) (termOf H (fun _ => none) depth e.2)))
      (metIn H depth e.1 ++ metIn H depth e.2) (Reaches H depth e.1 ∧ Reaches H depth e.2) := by
  have hvalue := (Writes.emit m.limit " = ").bind (h e.2)
  have hbracketed : Writes m.limit (do emit "["; write e.1; emit "]"; emit " = "; write e.2)
      ("[" ++ plainText H depth level e.1 ++ "]" ++ " = " ++ plainText H depth level e.2)
      (metIn H depth e.1 ++ metIn H depth e.2) (Reaches H depth e.1 ∧ Reaches H depth e.2) :=
    ((Writes.emit m.limit "[").bind ((h e.1).bind ((Writes.emit m.limit "]").bind hvalue))).congr
      (by simp only [String.append_assoc]) rfl (by simp only [true_and])
  unfold field Term.fieldText
  cases hv : e.1.view with
  | inr t =>
    rw [bareName?_table hv]
    exact hbracketed
  | inl a =>
    have hterm : termOf H (fun _ => none) depth e.1 = .atom a := termOf_atom hv
    have hbare : (termOf H (fun _ => none) depth e.1).bareName? = a.bareName? := by
      rw [hterm]
      rfl
    rw [hbare]
    dsimp only
    cases a.bareName? with
    | none => exact hbracketed
    | some name =>
      have hsound : Reaches H depth e.1 := congrArg Term.isTooDeep hterm
      refine ((Writes.emit m.limit name).bind hvalue).congr ?_ ?_ ?_
      · rw [String.append_assoc]
        rfl
      · show [] ++ ([] ++ metIn H depth e.2) = metIn H depth e.1 ++ metIn H depth e.2
        rw [metIn_atom hv]
        rfl
      · simp only [true_and, hsound]

theorem fieldTexts_eq (fs : List Field) :
    Term.fieldTexts .compact level fs = fs.map (Term.fieldText .compact level) := by
  induction fs with
  | nil => rfl
  | cons f fs ih => rw [Term.fieldTexts, ih, List.map_cons]

theorem text_table (fs : List Field) (level : Nat) :
    (Term.table fs).text .compact level =
      "\x7b" ++ ", ".intercalate (fs.map (Term.fieldText .compact (level + 1))) ++ "\x7d" := by
  cases fs with
  | nil => rfl
  | cons f fs =>
    rw [Term.text, fieldTexts_eq]
    show "\x7b" ++ "" ++ _ ++ "" ++ "\x7d" = _
    rw [String.append_empty, String.append_empty]
    rfl

/-- The parts of the body of a table: the values of the sequence, then the entries. -/
def partsOf (l : Listing) : List (Value ⊕ Entry) := l.items.map .inl ++ l.fields.map .inr

/-- The field that a part is written as. -/
def fieldFor (H : Heap) (depth : Nat) : Value ⊕ Entry → Field
  | .inl v => .item (termOf H (fun _ => none) depth v)
  | .inr e => .pair (termOf H (fun _ => none) depth e.1) (termOf H (fun _ => none) depth e.2)

/-- The tables met in a part. -/
def metInPart (H : Heap) (depth : Nat) : Value ⊕ Entry → List TableId
  | .inl v => metIn H depth v
  | .inr e => metIn H depth e.1 ++ metIn H depth e.2

theorem fieldsOf_eq (l : Listing) :
    Term.fieldsOf (termOf H (fun _ => none) depth) l = (partsOf l).map (fieldFor H depth) := by
  unfold Term.fieldsOf partsOf
  rw [List.map_append, List.map_map, List.map_map]
  rfl

/-- No table in the entries of a listing is too deep, if none is in its fields. -/
theorem reaches_pairs_iff {l : Listing} :
    Term.anyTooDeep (Term.fieldsOf (termOf H (fun _ => none) depth) l) = false ↔
      ∀ e ∈ l.pairs, Reaches H depth e.1 ∧ Reaches H depth e.2 := by
  refine ⟨fun h e he => isTooDeep_of_mem_pairs h he, fun h => ?_⟩
  rw [anyTooDeep_iff, fieldsOf_eq, List.forall_mem_map]
  rintro (v | e) hx
  · have hv : v ∈ l.items := by simpa [partsOf] using hx
    rw [← List.zipIdx_map_fst 1 l.items] at hv
    obtain ⟨⟨_, i⟩, hmem, rfl⟩ := List.mem_map.1 hv
    exact (h _ (List.mem_append_left _ (List.mem_map_of_mem hmem))).2
  · have he : e ∈ l.fields := by simpa [partsOf] using hx
    exact Bool.or_eq_false_iff.2 (h e (List.mem_append_right _ he))

theorem flatMap_metInPart (l : Listing) :
    (partsOf l).flatMap (metInPart H depth) =
      l.pairs.flatMap fun e => metIn H depth e.1 ++ metIn H depth e.2 := by
  have hitems (vs : List Value) (n : Nat) :
      (vs.zipIdx n).flatMap (fun x => metIn H depth (.index x.2) ++ metIn H depth x.1) =
        vs.flatMap (metIn H depth) := by
    induction vs generalizing n with
    | nil => rfl
    | cons v vs ih =>
      rw [List.zipIdx_cons, List.flatMap_cons, ih, List.flatMap_cons]
      rfl
  unfold partsOf Listing.pairs
  rw [List.flatMap_append, List.flatMap_append, List.flatMap_map, List.flatMap_map,
    List.flatMap_map, hitems]
  rfl

theorem writes_part (h : WritesValues m H depth level write) :
    (x : Value ⊕ Entry) → Writes m.limit (Sum.elim write (field write) x)
      (Term.fieldText .compact level (fieldFor H depth x)) (metInPart H depth x)
      (Term.fieldTooDeep (fieldFor H depth x) = false)
  | .inl v => h v
  | .inr e => (writes_field h e).congr rfl rfl (Bool.or_eq_false_iff).symm

/-- The body of a table is written between braces. -/
theorem writes_body (h : WritesValues m H depth (level + 1) write) (l : Listing) :
    Writes m.limit (body m write l)
      ((Term.table (Term.fieldsOf (termOf H (fun _ => none) depth) l)).text .compact level)
      (l.pairs.flatMap fun e => metIn H depth e.1 ++ metIn H depth e.2)
      (Term.anyTooDeep (Term.fieldsOf (termOf H (fun _ => none) depth) l) = false) := by
  have hparts := writes_separated (partsOf l) fun x _ => writes_part h x
  have hmap : (partsOf l).map (Sum.elim write (field write)) =
      l.items.map write ++ l.fields.map (field write) := by
    unfold partsOf
    rw [List.map_append, List.map_map, List.map_map]
    rfl
  unfold body
  cases hempty : l.isEmpty with
  | false =>
    rw [hmap] at hparts
    have hclose := (Writes.emit m.limit "\x7d").bind (.check m)
    refine ((Writes.emit m.limit "\x7b").bind (hparts.bind hclose)).congr ?_ ?_ ?_
    · rw [text_table, fieldsOf_eq, List.map_map, String.append_empty, String.append_assoc]
      rfl
    · rw [List.append_nil, List.append_nil, flatMap_metInPart]
      rfl
    · rw [anyTooDeep_iff, fieldsOf_eq, List.forall_mem_map]
      simp only [true_and, and_true]
  | true =>
    obtain ⟨items, fields⟩ := l
    obtain ⟨hitems, hfields⟩ := Bool.and_eq_true_iff.1 hempty
    obtain rfl := List.isEmpty_iff.1 hitems
    obtain rfl := List.isEmpty_iff.1 hfields
    exact ((Writes.emit m.limit "\x7b\x7d").bind (.check m)).congr rfl rfl
      (iff_of_true ⟨trivial, trivial⟩ rfl)

theorem checked_body (l : Listing) : Checked m.limit (body m write l) := by
  unfold body
  dsimp only
  split
  · exact (checked_check m).bind _
  · exact (((checked_check m).bind _).bind _).bind _

/-- A table that was met before is refused, and any other is noted before its body is written. -/
theorem result_table (hm : m.marks = false) (t : TableId) (k : Sketch) :
    result (table m write (fun u => pure (H.listing u)) t) k =
      if k.met.contains t then (.error .notATree, k)
      else result (body m write (H.listing t)) (k.add "" [t]) := by
  have hadd : k.add "" [t] = { k with met := k.met.insert t } := by
    unfold add
    rw [String.append_empty]
    rfl
  rw [hadd]
  unfold table
  rw [hm]
  show result (if k.met.contains t then _ else _) k = _
  split <;> rfl

/-- A table is written where it is met for the first time. -/
theorem writes_table (hm : m.marks = false) (h : WritesValues m H depth (level + 1) write)
    (t : TableId) :
    Writes m.limit (table m write (fun u => pure (H.listing u)) t)
      (plainText H (depth + 1) level (.table t)) (metIn H (depth + 1) (.table t))
      (Reaches H (depth + 1) (.table t)) := by
  have hbody := writes_body h (H.listing t)
  have htext : plainText H (depth + 1) level (.table t) =
      (Term.table (Term.fieldsOf (termOf H (fun _ => none) depth) (H.listing t))).text .compact
        level := by
    unfold plainText
    rw [termOf_succ rfl]
  have hmet : metIn H (depth + 1) (.table t) =
      [t] ++ (H.listing t).pairs.flatMap fun e => metIn H depth e.1 ++ metIn H depth e.2 :=
    writtenIn_table rfl
  have hreaches : Reaches H (depth + 1) (.table t) ↔
      Term.anyTooDeep (Term.fieldsOf (termOf H (fun _ => none) depth) (H.listing t)) = false := by
    unfold Reaches
    rw [termOf_succ rfl, Term.isTooDeep]
  rw [← htext] at hbody
  have hunmet (k : Sketch) : k.Fresh [t] ↔ ¬ k.met.contains t = true := by
    rw [Std.TreeSet.contains_iff_mem]
    exact ⟨fun hfresh => hfresh.unmet t (List.mem_singleton_self t), fun hnot =>
      ⟨List.nodup_singleton t, List.forall_mem_singleton.2 hnot⟩⟩
  rw [hmet]
  constructor
  · intro k hsound hfresh hlimit
    obtain ⟨hfirst, hrest⟩ := (fresh_append (s := "")).1 hfresh
    rw [result_table hm, if_neg ((hunmet k).1 hfirst)]
    rw [hbody.run _ (hreaches.1 hsound) hrest (by rwa [add, String.append_empty]), add_add,
      String.empty_append]
  · intro k k' hrun
    rw [result_table hm] at hrun
    split at hrun
    · cases hrun
    · rename_i hnot
      obtain ⟨hsound, hrest, rfl⟩ := hbody.of_run _ _ hrun
      refine ⟨hreaches.2 hsound, fresh_append.2 ⟨(hunmet k).2 hnot, hrest⟩, ?_⟩
      rw [add_add, String.empty_append]
  · intro k k' hrun hfresh
    obtain ⟨hfirst, hrest⟩ := (fresh_append (s := "")).1 hfresh
    rw [result_table hm, if_neg ((hunmet k).1 hfirst)] at hrun
    exact hbody.not_fresh _ k' hrun hrest

theorem checked_table (hm : m.marks = false) (t : TableId) :
    Checked m.limit (table m write (fun u => pure (H.listing u)) t) := by
  intro k k' hrun
  rw [result_table hm] at hrun
  split at hrun
  · cases hrun
  · exact checked_body _ _ _ hrun

theorem value_atom (m : Manner) (listing : TableId → Id Listing) (depth : Nat) {v : Value}
    {a : Atom} (hv : v.view = .inl a) : value m listing depth v = (do emit a.text; check m) := by
  unfold value
  rw [hv]

theorem writes_atom (m : Manner) (H : Heap) (depth level : Nat) {v : Value} {a : Atom}
    (hv : v.view = .inl a) :
    Writes m.limit (value m (fun u => pure (H.listing u)) depth v) (plainText H depth level v)
      (metIn H depth v) (Reaches H depth v) := by
  have hterm : termOf H (fun _ => none) depth v = .atom a := termOf_atom hv
  rw [value_atom m (fun u => pure (H.listing u)) depth hv]
  refine ((Writes.emit m.limit a.text).bind (.check m)).congr ?_ ?_ ?_
  · rw [plainText, hterm, String.append_empty, Term.text]
  · rw [metIn_atom hv]
    rfl
  · exact iff_of_true ⟨trivial, trivial⟩ (congrArg Term.isTooDeep hterm)

/-- **The writer adds the compact text of a value and the tables in it.** -/
theorem writes_value (hm : m.marks = false) (depth level : Nat) :
    WritesValues m H depth level (value m (fun u => pure (H.listing u)) depth) := by
  induction depth generalizing level with
  | zero =>
    intro v
    cases hv : v.view with
    | inl a => exact writes_atom m H 0 level hv
    | inr t =>
      cases v with
      | table t =>
        have hrefuse := Writes.refuse m.limit (e := .tooDeep m.maxDepth) (by simp)
        refine (hrefuse _ _).congr rfl rfl (iff_of_false id ?_)
        rw [Reaches, termOf_zero rfl]
        exact nofun
      | _ => cases hv
  | succ depth ih =>
    intro v
    cases hv : v.view with
    | inl a => exact writes_atom m H (depth + 1) level hv
    | inr t =>
      cases v with
      | table t => exact writes_table hm (ih (level + 1)) t
      | _ => cases hv

theorem checked_value (hm : m.marks = false) (depth : Nat) (v : Value) :
    Checked m.limit (value m (fun u => pure (H.listing u)) depth v) := by
  cases hv : v.view with
  | inl a =>
    rw [value_atom m (fun u => pure (H.listing u)) depth hv]
    exact (checked_check m).bind _
  | inr t =>
    cases v with
    | table t =>
      cases depth with
      | zero => exact checked_throw _ _
      | succ depth => exact checked_table hm t
    | _ => cases hv

end

end Sketch

end LuaGraph
