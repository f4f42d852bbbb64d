import LuaGraph.Proofs.Sorting.Stable
import LuaGraph.Sharing
import Mathlib.Data.List.Forall2

/-!
# Corresponding actions

What lists and writes tables is told how to take signatures and to list entries by actions of any
monad. So whatever relates these actions in two monads, relates what is made of them, as long as it
is kept by sequences: this is a `Correspondence`. It says in one way that a panic comes out as a
panic, that two signatures that agree where it matters give the same texts, and that a set of tables
is left as it was found.

Results: `rel_run` for contests, **`rel_sortEntries`** for sorted entries and **`rel_textOf`** for
texts.
-/

namespace LuaGraph

/-! ## Entries without panics -/

namespace Listing

/-- The entries whose key is no handle, with what their keys are sorted by. -/
def keyed (text : TableId → String) (es : List Entry) : List (OrderKey × Entry) :=
  (es.filter fun e => !e.1.isHandle).map fun e => (OrderKey.ofValue text e.1, e)

/-- The first entry comes before the second, given the signatures of tables. -/
def beforeBy (text : TableId → String) (x y : OrderKey × Entry) : Bool :=
  match x.1.order y.1 with
  | .lt => true
  | .gt => false
  | .eq => (OrderKey.ofValue text x.2.2).order (OrderKey.ofValue text y.2.2) == .lt

end Listing

/-- What is no atom is a table. -/
theorem Value.eq_table_of_view {v : Value} {t : TableId} (h : v.view = .inr t) : v = .table t := by
  cases v with
  | table t' => exact congrArg table (Sum.inr.inj h)
  | _ => cases h

theorem Value.eq_table_of_table? {v : Value} {t : TableId} (h : t ∈ v.table?) : v = .table t := by
  cases v with
  | table t' => exact congrArg table (Option.some.inj h)
  | _ => cases h

namespace Census

variable {l : Listing} {e : Entry} {v : Value} {t : TableId}

theorem mem_children_item (hv : v ∈ l.items) (ht : t ∈ v.table?) : t ∈ children l :=
  List.mem_append_left _ (List.mem_filterMap.2 ⟨v, hv, ht⟩)

theorem mem_children_field (he : e ∈ l.fields) (ht : t ∈ e.1.table? ∨ t ∈ e.2.table?) :
    t ∈ children l :=
  List.mem_append_right _ (List.mem_flatMap.2 ⟨e, he, List.mem_filterMap.2
    (ht.elim (fun ht => ⟨e.1, by simp, ht⟩) fun ht => ⟨e.2, by simp, ht⟩)⟩)

end Census

/-! ## Correspondences -/

/-- `rel Q p q` says that two actions do the same and have the same result, with the property `Q`;
sequences of such actions do too. -/
structure Correspondence (m m' : Type → Type) [Monad m] [Monad m'] where
  rel : {α : Type} → (α → Prop) → m α → m' α → Prop
  pure : ∀ {α : Type} {Q : α → Prop} {a : α}, Q a → rel Q (Pure.pure a) (Pure.pure a)
  bind : ∀ {α β : Type} {Q : α → Prop} {R : β → Prop} {p : m α} {q : m' α} {f : α → m β}
    {g : α → m' β}, rel Q p q → (∀ a, Q a → rel R (f a) (g a)) → rel R (p >>= f) (q >>= g)

namespace Correspondence

section

variable {m m' : Type → Type} [Monad m] [Monad m'] [LawfulMonad m] [LawfulMonad m']
  (S : Correspondence m m') {α β : Type}

theorem imp {Q R : α → Prop} {p : m α} {q : m' α} (h : S.rel Q p q) (hQ : ∀ a, Q a → R a) :
    S.rel R p q := by
  have hbind := S.bind h (f := Pure.pure) (g := Pure.pure) fun a ha => S.pure (hQ a ha)
  rwa [bind_pure, bind_pure] at hbind

theorem mapM {f : α → m β} {g : α → m' β} {h : α → β} {xs : List α}
    (hfg : ∀ x ∈ xs, S.rel (· = h x) (f x) (g x)) :
    S.rel (· = xs.map h) (xs.mapM f) (xs.mapM g) := by
  induction xs with
  | nil => exact S.pure rfl
  | cons x xs ih =>
    obtain ⟨hx, hxs⟩ := List.forall_mem_cons.1 hfg
    rw [List.mapM_cons, List.mapM_cons]
    exact S.bind hx fun y hy => S.bind (ih hxs) fun ys hys =>
      S.pure (by rw [hy, hys, List.map_cons])

/-! ## Entries -/

section

variable [MonadExceptOf Unit m] [MonadExceptOf Unit m']

omit [LawfulMonad m] [LawfulMonad m'] in
/-- **A contest is run the same way** by answers that are related. It need not be known that panics
are, where the answers do not contradict one another. -/
theorem rel_run {R : Ranking α} {Q : β → Prop} {c : Contest α β} (hc : c.Meets R Q)
    {answer : α → α → m Bool} {answer' : α → α → m' Bool}
    (hpanic : (R.Consistent ∨ c.Unbroken) ∨ S.rel Q (throw ()) (throw ()))
    (h : ∀ x y, R.among x → R.among y → S.rel (R.Told x y) (answer x y) (answer' x y)) :
    S.rel Q (c.run answer) (c.run answer') := by
  induction c with
  | done b => exact S.pure hc
  | broken => exact hpanic.resolve_left fun hcalm => hcalm.elim hc id
  | ask x y next ih =>
    obtain ⟨hx, hy, hnext⟩ := hc
    refine S.bind (h x y hx hy) fun b hb => ih b (hnext b hb) ?_
    exact hpanic.imp_left fun hcalm => hcalm.imp_right fun hwhole => hwhole b

variable {sign : TableId → m String} {sign' : TableId → m' String} {text : TableId → String}

omit [LawfulMonad m] [LawfulMonad m'] [MonadExceptOf Unit m] [MonadExceptOf Unit m'] in
/-- What a value is sorted by. -/
theorem rel_signed {v : Value}
    (h : ∀ t ∈ v.table?, S.rel (· = text t) (sign t) (sign' t)) :
    S.rel (· = .ofValue text v) (Listing.signed sign v) (Listing.signed sign' v) := by
  cases v with
  | table t => exact S.bind (h t rfl) fun s hs => S.pure (congrArg (OrderKey.other .table) hs)
  | nil => exact S.pure rfl
  | boolean b => exact S.pure rfl
  | number n => exact S.pure rfl
  | string s => exact S.pure rfl
  | function f => exact S.pure rfl
  | userdata f => exact S.pure rfl

omit [LawfulMonad m] [LawfulMonad m'] [MonadExceptOf Unit m] [MonadExceptOf Unit m'] in
/-- What comes first of two entries. -/
theorem rel_before {x y : OrderKey × Entry}
    (h : ∀ t, t ∈ x.2.2.table? ∨ t ∈ y.2.2.table? → S.rel (· = text t) (sign t) (sign' t)) :
    S.rel (· = Listing.beforeBy text x y) (Listing.before sign x y) (Listing.before sign' x y) := by
  unfold Listing.before Listing.beforeBy
  cases x.1.order y.1 with
  | lt => exact S.pure rfl
  | gt => exact S.pure rfl
  | eq =>
    refine S.bind (S.rel_signed fun t ht => h t (.inl ht)) fun a ha => ?_
    refine S.bind (S.rel_signed fun t ht => h t (.inr ht)) fun b hb => S.pure ?_
    rw [ha, hb]

/-- **Entries are sorted the same way** where signatures are related. -/
theorem rel_sortEntries (text : TableId → String) {R : Ranking (OrderKey × Entry)}
    {es : List Entry}
    (hsign : ∀ e ∈ es, e.1.isHandle = false → ∀ t, t ∈ e.1.table? ∨ t ∈ e.2.table? →
      S.rel (· = text t) (sign t) (sign' t))
    (hin : ∀ x, R.among x ↔ x ∈ Listing.keyed text es)
    (htold : ∀ x y, R.among x → R.among y → R.Told x y (Listing.beforeBy text x y))
    (hpanic : (R.Consistent ∨ (es.filter fun e => !e.1.isHandle).length ≤ 20) ∨
      ∀ {α : Type} (Q : α → Prop), S.rel Q (throw ()) (throw ())) :
    S.rel (fun es' => ∃ xs, R.Orders (Listing.keyed text es) xs ∧ es' = xs.map Prod.snd)
      (Listing.sortEntries sign es) (Listing.sortEntries sign' es) := by
  refine S.bind (Q := (· = Listing.keyed text es)) (S.mapM fun e he => ?_) fun xs hxs => ?_
  · obtain ⟨he, hh⟩ := List.mem_filter.1 he
    refine S.bind (S.rel_signed fun t ht => hsign e he (by simpa using hh) t (.inl ht))
      fun k hk => S.pure (congrArg (·, e) hk)
  · subst hxs
    have hvalue {x : OrderKey × Entry} (hx : R.among x) (t : TableId) (ht : t ∈ x.2.2.table?) :
        S.rel (· = text t) (sign t) (sign' t) := by
      obtain ⟨e, he, rfl⟩ := List.mem_map.1 ((hin x).1 hx)
      obtain ⟨he, hh⟩ := List.mem_filter.1 he
      exact hsign e he (by simpa using hh) t (.inr ht)
    refine S.bind (S.rel_run (Contest.meets_stable fun x hx => (hin x).2 hx) ?_
      fun x y hx hy => ?_) fun xs hxs => S.pure ⟨xs, hxs, rfl⟩
    · refine hpanic.imp (fun hcalm => hcalm.imp_right fun hfew => ?_) fun h => h _
      refine Contest.unbroken_stable ?_
      rwa [Listing.keyed, List.length_map]
    · refine S.imp (S.rel_before fun t ht => ht.elim (hvalue hx t) (hvalue hy t)) ?_
      rintro b rfl
      exact htold x y hx hy

end

end

end Correspondence

/-! ## Sketches -/

namespace Sketch

variable {m : Type → Type} [Monad m] [LawfulMonad m] {α : Type}

theorem run_lift (p : StateT Sketch m α) (k : Sketch) :
    (liftM p : Draw m α).run.run k = (fun r => (.ok r.1, r.2)) <$> p.run k := by
  show (Except.ok <$> p).run k = _
  rw [StateT.run_map]

theorem run_get (k : Sketch) : (get : Draw m Sketch).run.run k = pure (.ok k, k) := by
  refine (run_lift get k).trans ?_
  rw [StateT.run_get, map_pure]

theorem run_modify (f : Sketch → Sketch) (k : Sketch) :
    (modify f : Draw m Unit).run.run k = pure (.ok (), f k) := by
  refine (run_lift (modify f) k).trans ?_
  rw [StateT.run_modify, map_pure]

theorem run_action (p : m α) (k : Sketch) :
    (liftM p : Draw m α).run.run k = (fun a => (.ok a, k)) <$> p := by
  refine (run_lift (liftM p) k).trans ?_
  simp

omit [LawfulMonad m] in
theorem run_bind {β : Type} (p : Draw m α) (g : α → Draw m β) (k : Sketch) :
    (p >>= g).run.run k = p.run.run k >>= fun (r, k') =>
      match r with
      | .ok a => (g a).run.run k'
      | .error e => pure (.error e, k') := by
  refine congrArg (p.run.run k >>= ·) (funext fun (r, k') => ?_)
  cases r <;> rfl

/-- A table is noted before it is listed. -/
theorem run_listed {β : Type} (f : Sketch → Sketch) (p : m α) (g : α → Draw m β) (k : Sketch) :
    (do modify f; g (← p) : Draw m β).run.run k = p >>= fun a => (g a).run.run (f k) := by
  rw [run_bind, run_modify, pure_bind]
  dsimp only
  rw [run_bind, run_action, map_eq_pure_bind, bind_assoc]
  simp only [pure_bind]

end Sketch

namespace Correspondence

section

variable {m m' : Type → Type} [Monad m] [Monad m'] [LawfulMonad m] [LawfulMonad m']
  (S : Correspondence m m') {α β : Type}

/-- Sketches are drawn the same way, and keep a property of the tables met. -/
def draw (P : TableId → Prop) : Correspondence (Sketch.Draw m) (Sketch.Draw m') where
  rel Q p q := ∀ k : Sketch, (∀ t ∈ k.met, P t) →
    S.rel (fun r => (∀ a, r.1 = .ok a → Q a) ∧ ∀ t ∈ r.2.met, P t) (p.run.run k) (q.run.run k)
  pure h k hk := S.pure ⟨fun _ ha => Except.ok.inj ha ▸ h, hk⟩
  bind hp hf k hk := S.bind (hp k hk) fun (r, k') ⟨hr, hk'⟩ => by
    cases r with
    | error e => exact S.pure ⟨fun _ ha => (nomatch ha), hk'⟩
    | ok a => exact hf a (hr a rfl) k' hk'

variable {P : TableId → Prop} {write : Value → Sketch.Draw m Unit}
  {write' : Value → Sketch.Draw m' Unit} {n : Sketch.Manner}

omit [LawfulMonad m] [LawfulMonad m'] in
theorem rel_throw (e : Error) {Q : α → Prop} : (S.draw P).rel Q (throw e) (throw e) :=
  fun _ hk => S.pure ⟨fun _ ha => (nomatch ha), hk⟩

theorem rel_get : (S.draw P).rel (fun k => ∀ t ∈ k.met, P t) get get := fun k hk => by
  rw [Sketch.run_get, Sketch.run_get]
  exact S.pure ⟨fun _ ha => Except.ok.inj ha ▸ hk, hk⟩

theorem rel_emit (s : String) :
    (S.draw P).rel (fun _ => True) (Sketch.emit s) (Sketch.emit s) := fun k hk => by
  unfold Sketch.emit
  rw [Sketch.run_modify, Sketch.run_modify]
  exact S.pure ⟨fun _ _ => trivial, hk⟩

theorem rel_check : (S.draw P).rel (fun _ => True) (Sketch.check n) (Sketch.check n) :=
  (S.draw P).bind S.rel_get fun k _ => by
    split
    · exact S.rel_throw _
    · exact (S.draw P).pure trivial

/-- Parts with commas between them. -/
theorem rel_separated {parts : List (Sketch.Draw m Unit)} {parts' : List (Sketch.Draw m' Unit)}
    (h : List.Forall₂ ((S.draw P).rel fun _ => True) parts parts') :
    (S.draw P).rel (fun _ => True) (Sketch.separated parts) (Sketch.separated parts') := by
  cases h with
  | nil => exact (S.draw P).pure trivial
  | cons hp hps =>
    refine (S.draw P).bind hp fun _ _ => ?_
    induction hps with
    | nil => exact (S.draw P).pure trivial
    | cons hp _ ih =>
      refine (S.draw P).bind ((S.draw P).bind (S.rel_emit ", ") fun _ _ => hp) fun _ _ => ih

theorem rel_field {e : Entry}
    (hk : (S.draw P).rel (fun _ => True) (write e.1) (write' e.1))
    (hv : (S.draw P).rel (fun _ => True) (write e.2) (write' e.2)) :
    (S.draw P).rel (fun _ => True) (Sketch.field write e) (Sketch.field write' e) := by
  have hrest : (S.draw P).rel (fun _ => True) (do Sketch.emit " = "; write e.2)
      (do Sketch.emit " = "; write' e.2) := (S.draw P).bind (S.rel_emit _) fun _ _ => hv
  have hbrackets : (S.draw P).rel (fun _ => True)
      (do Sketch.emit "["; write e.1; Sketch.emit "]"; Sketch.emit " = "; write e.2)
      (do Sketch.emit "["; write' e.1; Sketch.emit "]"; Sketch.emit " = "; write' e.2) :=
    (S.draw P).bind (S.rel_emit _) fun _ _ => (S.draw P).bind hk fun _ _ =>
      (S.draw P).bind (S.rel_emit _) fun _ _ => hrest
  unfold Sketch.field
  dsimp only
  cases e.1.view with
  | inl a =>
    dsimp only
    cases a.bareName? with
    | some name => exact (S.draw P).bind (S.rel_emit name) fun _ _ => hrest
    | none => exact hbrackets
  | inr t => exact hbrackets

theorem rel_body {l : Listing}
    (hitems : ∀ v ∈ l.items, (S.draw P).rel (fun _ => True) (write v) (write' v))
    (hfields : ∀ e ∈ l.fields, (S.draw P).rel (fun _ => True) (write e.1) (write' e.1) ∧
      (S.draw P).rel (fun _ => True) (write e.2) (write' e.2)) :
    (S.draw P).rel (fun _ => True) (Sketch.body n write l) (Sketch.body n write' l) := by
  have hparts : List.Forall₂ ((S.draw P).rel fun _ => True)
      (l.items.map write ++ l.fields.map (Sketch.field write))
      (l.items.map write' ++ l.fields.map (Sketch.field write')) := by
    refine List.rel_append ?_ ?_
    · exact List.forall₂_map_left_iff.2 (List.forall₂_map_right_iff.2
        (List.forall₂_same.2 hitems))
    · exact List.forall₂_map_left_iff.2 (List.forall₂_map_right_iff.2
        (List.forall₂_same.2 fun e he => S.rel_field (hfields e he).1 (hfields e he).2))
  unfold Sketch.body
  dsimp only
  split
  · exact (S.draw P).bind (S.rel_emit _) fun _ _ => S.rel_check
  · exact (S.draw P).bind (S.rel_emit _) fun _ _ =>
      (S.draw P).bind (S.rel_separated hparts) fun _ _ =>
        (S.draw P).bind (S.rel_emit _) fun _ _ => S.rel_check

variable {met : TableId → Prop} {listing : TableId → m Listing} {listing' : TableId → m' Listing}

theorem rel_table {t : TableId}
    (hlisting : S.rel (fun l => P t ∧ (S.draw P).rel (fun _ => True) (Sketch.body n write l)
      (Sketch.body n write' l)) (listing t) (listing' t)) :
    (S.draw P).rel (fun _ => True) (Sketch.table n write listing t)
      (Sketch.table n write' listing' t) := by
  refine (S.draw P).bind S.rel_get fun k _ => ?_
  split
  · split
    · exact (S.draw P).bind (S.rel_emit _) fun _ _ => S.rel_check
    · exact S.rel_throw _
  · -- the table is noted before it is known whether it can be listed
    intro k hk
    have hmeet := S.bind hlisting (f := fun l => (Sketch.body n write l).run.run
      { k with met := k.met.insert t }) (g := fun l => (Sketch.body n write' l).run.run
      { k with met := k.met.insert t }) fun l ⟨hP, hbody⟩ => hbody _ fun u hu => by
        rcases Std.TreeSet.mem_insert.1 hu with hcmp | hu
        · exact Std.compare_eq_iff_eq.1 hcmp ▸ hP
        · exact hk u hu
    rw [Sketch.run_listed, Sketch.run_listed]
    exact hmeet

/-- **Values are drawn the same way** where listings are related and lead to tables that are. -/
theorem rel_value
    (hlisting : ∀ t, met t →
      S.rel (fun l => P t ∧ ∀ u ∈ Census.children l, met u) (listing t) (listing' t))
    (depth : Nat) {v : Value} (hv : ∀ t ∈ v.table?, met t) :
    (S.draw P).rel (fun _ => True) (Sketch.value n listing depth v)
      (Sketch.value n listing' depth v) := by
  induction depth generalizing v with
  | zero =>
    unfold Sketch.value
    cases v.view with
    | inl a => exact (S.draw P).bind (S.rel_emit _) fun _ _ => S.rel_check
    | inr t => exact S.rel_throw _
  | succ depth ih =>
    unfold Sketch.value
    cases hview : v.view with
    | inl a => exact (S.draw P).bind (S.rel_emit _) fun _ _ => S.rel_check
    | inr t =>
      refine S.rel_table (S.imp (hlisting t (hv t ?_)) fun l ⟨hP, hchildren⟩ => ⟨hP, ?_⟩)
      · rw [Value.eq_table_of_view hview]
        rfl
      · exact S.rel_body (fun v hv => ih fun u hu => hchildren u (Census.mem_children_item hv hu))
          fun e he => ⟨ih fun u hu => hchildren u (Census.mem_children_field he (.inl hu)),
            ih fun u hu => hchildren u (Census.mem_children_field he (.inr hu))⟩

/-- **Sketches are drawn the same way.** -/
theorem rel_draw (hlisting : ∀ t, met t →
      S.rel (fun l => P t ∧ ∀ u ∈ Census.children l, met u) (listing t) (listing' t))
    {v : Value} (hv : ∀ t ∈ v.table?, met t) :
    S.rel (fun r => ∀ t ∈ r.2.met, P t) (Sketch.draw n listing v) (Sketch.draw n listing' v) := by
  refine S.imp (S.rel_value hlisting n.maxDepth hv {} fun t ht => ?_) fun r hr => hr.2
  exact absurd ht Std.TreeSet.not_mem_emptyc

/-- **Texts are drawn the same way.** -/
theorem rel_textOf (hlisting : ∀ t, met t →
      S.rel (fun l => P t ∧ ∀ u ∈ Census.children l, met u) (listing t) (listing' t))
    {v : Value} (hv : ∀ t ∈ v.table?, met t) :
    S.rel (fun _ => True) (Sketch.textOf listing v) (Sketch.textOf listing' v) :=
  S.bind (S.rel_draw hlisting hv) fun _ _ => S.pure trivial

end

/-! ## What options come to -/

/-- The same result, if there is one. -/
def partially : Correspondence Option Option where
  rel Q p q := p = q ∧ ∀ a ∈ p, Q a
  pure h := ⟨rfl, fun _ ha => Option.some.inj ha ▸ h⟩
  bind := by
    rintro _ _ _ _ p _ f g ⟨rfl, hp⟩ hfg
    cases p with
    | none => exact ⟨rfl, fun _ hb => nomatch hb⟩
    | some a => exact hfg a (hp a rfl)

theorem partially_throw {α : Type} (Q : α → Prop) : partially.rel Q (throw ()) (throw ()) :=
  ⟨rfl, fun _ ha => nomatch ha⟩

theorem partially_refl {α : Type} {Q : α → Prop} {p : Option α} (h : ∀ a ∈ p, Q a) :
    partially.rel Q p p :=
  ⟨rfl, h⟩

/-- The same result, which there is. -/
def totally : Correspondence Option Option where
  rel Q p q := p = q ∧ ∃ a ∈ p, Q a
  pure h := ⟨rfl, _, rfl, h⟩
  bind := by
    rintro _ _ _ _ _ _ f g ⟨rfl, a, rfl, ha⟩ hfg
    exact hfg a ha

end Correspondence

end LuaGraph
