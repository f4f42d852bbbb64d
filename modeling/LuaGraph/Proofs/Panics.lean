import LuaGraph.Proofs.Graph.Saved

/-!
# Panics

A table is *listed* if no sort panics for its listing (`ordered_entries`): neither that of its own
entries nor one for a signature that it takes. A census (`visit`) panics exactly if it comes to a
table that is not listed, and it comes to all that will be written. So bindings either *sort*, and
then they are saved as `Proofs/Settled` says, or a panic comes before anything is written and before
the checker is asked.

Results: **`Census.ofValues?_eq_some_iff`**, `render?_eq`, **`save?_of_sorts`** and
`save?_of_not_sorts`.
-/

namespace LuaGraph

variable {α β : Type}

theorem mapM_eq_some_map {f : α → Option β} {g : α → β} {xs : List α}
    (h : ∀ x ∈ xs, f x = some (g x)) : xs.mapM f = some (xs.map g) := by
  obtain ⟨-, ys, hys, rfl⟩ := Correspondence.totally.mapM (h := g)
    fun x hx => ⟨rfl, g x, h x hx, rfl⟩
  exact hys

theorem foldlM_eq_some_foldl {f : β → α → Option β} {g : β → α → β} {xs : List α} {b : β}
    (h : ∀ x ∈ xs, ∀ b, f b x = some (g b x)) : xs.foldlM f b = some (xs.foldl g b) := by
  induction xs generalizing b with
  | nil => rfl
  | cons x xs ih =>
    obtain ⟨hx, hxs⟩ := List.forall_mem_cons.1 h
    rw [List.foldlM_cons, hx]
    exact ih hxs

/-! ## Tables that are listed -/

/-- **No sort panics** for the listing of a table. -/
def Heap.Listed (H : Heap) (t : TableId) : Prop := (H.listing? t).isSome

theorem Heap.Listed.eq {H : Heap} {t : TableId} (h : H.Listed t) :
    H.listing? t = some (H.listing t) := by
  obtain ⟨l, hl⟩ := Option.isSome_iff_exists.1 h
  rw [Heap.listing, hl, Option.getD_some]

theorem Heap.listing_eq {H : Heap} {t : TableId} {l : Listing} (h : H.listing? t = some l) :
    H.Listed t ∧ H.listing t = l := by
  rw [Heap.Listed, Heap.listing, h]
  exact ⟨rfl, rfl⟩

/-! ## Censuses -/

namespace Census

variable {H : Heap} {c c' : Census} {t : TableId} {vs : List Value}

/-- The second census is what a visit makes of the first, and what is new in it is listed. -/
structure Visited (H : Heap) (c c' made : Census) : Prop where
  eq : made = c'
  listed : ∀ u ∈ c'.all, u ∈ c.all ∨ H.Listed u

theorem Visited.foldlM {f : Census → α → Option Census} {g : Census → α → Census}
    (h : ∀ c c' x, f c x = some c' → Visited H c c' (g c x)) {xs : List α}
    (hfold : xs.foldlM f c = some c') : Visited H c c' (xs.foldl g c) := by
  induction xs generalizing c with
  | nil =>
    obtain rfl := Option.some.inj hfold
    exact ⟨rfl, fun u hu => .inl hu⟩
  | cons x xs ih =>
    rw [List.foldlM_cons] at hfold
    obtain ⟨c₁, hfirst, hrest⟩ := Option.bind_eq_some_iff.1 hfold
    have hvisited := h c c₁ x hfirst
    obtain ⟨heq, hlisted⟩ := ih hrest
    rw [List.foldl_cons, hvisited.eq]
    exact ⟨heq, fun u hu => (hlisted u hu).elim (hvisited.listed u) .inr⟩

/-- A visit that does not panic finds listed tables only. -/
theorem visited_visit? (depth : Nat) (hvisit : visit? H depth c t = some c') :
    Visited H c c' (visit H depth c t) := by
  induction depth generalizing c t c' with
  | zero =>
    obtain rfl := Option.some.inj hvisit
    exact ⟨rfl, fun u hu => .inl hu⟩
  | succ depth ih =>
    rw [visit?] at hvisit
    rw [visit]
    split at hvisit
    · rename_i hzero
      rw [if_pos hzero]
      obtain ⟨l, hl, hfold⟩ := Option.bind_eq_some_iff.1 hvisit
      obtain ⟨ht, rfl⟩ := Heap.listing_eq hl
      obtain ⟨heq, hlisted⟩ := Visited.foldlM (fun _ _ _ => ih) hfold
      refine ⟨heq, fun u hu => (hlisted u hu).elim (fun hu => ?_) .inr⟩
      rw [all_first, List.mem_append, List.mem_singleton] at hu
      exact hu.imp id fun (heq : u = t) => heq ▸ ht
    · rename_i hzero
      obtain rfl := Option.some.inj hvisit
      rw [if_neg hzero]
      exact ⟨rfl, fun u hu => .inl hu⟩

/-- A visit does not panic if all tables that it can come to are listed. -/
theorem visit?_eq (depth : Nat) (hlisted : ∀ u, Reach H.children [t] u → H.Listed u) :
    visit? H depth c t = some (visit H depth c t) := by
  induction depth generalizing c t with
  | zero => rfl
  | succ depth ih =>
    have ht : Reach H.children [t] t := .self
    rw [visit?, visit]
    split
    · rw [(hlisted t ht).eq]
      exact foldlM_eq_some_foldl fun u hu c => ih fun w hw => hlisted w (.trans (.child ht hu) hw)
    · rfl

theorem visited_visitValue? (v : Value) (hvisit : visitValue? H c v = some c') :
    Visited H c c' (visitValue H c v) := by
  unfold visitValue? at hvisit
  unfold visitValue
  cases hv : v.table? with
  | some t =>
    rw [hv] at hvisit
    exact visited_visit? H.size hvisit
  | none =>
    rw [hv] at hvisit
    obtain rfl := Option.some.inj hvisit
    exact ⟨rfl, fun u hu => .inl hu⟩

/-- **A census panics exactly if it comes to a table that is not listed.** -/
theorem ofValues?_eq_some_iff (h : H.WellFormed) (hvs : ∀ v ∈ vs, v.InHeap H) :
    ofValues? H vs = some c ↔ c = ofValues H vs ∧
      ∀ u, Reach H.children (vs.filterMap Value.table?) u → H.Listed u := by
  constructor
  · intro hc
    obtain ⟨heq, hlisted⟩ := Visited.foldlM (fun _ _ => visited_visitValue?) hc
    refine ⟨heq.symm, fun u hu => ?_⟩
    rw [← mem_all_iff h hvs, ofValues, heq] at hu
    exact (hlisted u hu).resolve_left fun hu => absurd hu List.not_mem_nil
  · rintro ⟨rfl, hlisted⟩
    refine foldlM_eq_some_foldl fun v hv c => ?_
    unfold visitValue? visitValue
    cases hvt : v.table? with
    | none => rfl
    | some t =>
      exact visit?_eq H.size fun u hu =>
        hlisted u (.trans (.root (List.mem_filterMap.2 ⟨v, hv, hvt⟩)) hu)

theorem ofValues?_eq_none_iff (h : H.WellFormed) (hvs : ∀ v ∈ vs, v.InHeap H) :
    ofValues? H vs = none ↔ ∃ u, Reach H.children (vs.filterMap Value.table?) u ∧ ¬H.Listed u := by
  rw [Option.eq_none_iff_forall_ne_some]
  simp only [ne_eq, ofValues?_eq_some_iff h hvs, not_and, not_forall, exists_prop, forall_eq]

end Census

/-! ## Documents -/

theorem Term.fieldsOf?_eq {f : Value → Option Term} {g : Value → Term} {l : Listing}
    (hitems : ∀ v ∈ l.items, f v = some (g v))
    (hfields : ∀ e ∈ l.fields, f e.1 = some (g e.1) ∧ f e.2 = some (g e.2)) :
    fieldsOf? f l = some (fieldsOf g l) := by
  unfold fieldsOf?
  rw [mapM_eq_some_map (g := fun v => Field.item (g v)) fun v hv => by rw [hitems v hv]; rfl,
    mapM_eq_some_map (g := fun e => Field.pair (g e.1) (g e.2)) fun e he => by
      rw [(hfields e he).1, (hfields e he).2]; rfl]
  rfl

theorem Document.fills?_eq {H : Heap} {f : Value → Option Term} {g : Value → Term}
    {slots : List TableId} (hlisted : ∀ t ∈ slots, H.Listed t)
    (hfg : ∀ t ∈ slots, ∀ e ∈ H.pairs t, f e.1 = some (g e.1) ∧ f e.2 = some (g e.2)) :
    fills? H.listing? f slots = some (fills H.listing g slots) := by
  unfold fills?
  rw [mapM_eq_some_map (g := fun x => (H.listing x.1).pairs.map fun e =>
    (⟨x.2, g e.1, g e.2⟩ : Fill)) fun x hx => ?_]
  · rfl
  · have ht : x.1 ∈ slots := by
      rw [← List.zipIdx_map_fst 1 slots]
      exact List.mem_map_of_mem hx
    dsimp only
    rw [(hlisted x.1 ht).eq, Option.bind_eq_bind, Option.bind_some]
    exact mapM_eq_some_map fun e he => by
      rw [(hfg x.1 ht e he).1, (hfg x.1 ht e he).2]
      rfl

section

variable {H : Heap} {met : TableId → Prop} (hlisted : ∀ t, met t → H.Listed t)
  (hclosed : ∀ t, met t → ∀ u ∈ H.children t, met u)
include hlisted hclosed

theorem Term.ofValue?_eq (slot? : TableId → Option Nat) (depth : Nat) {v : Value}
    (hv : ∀ t ∈ v.table?, met t) :
    Term.ofValue? H.listing? slot? depth v = some (Term.ofValue H.listing slot? depth v) := by
  induction depth generalizing v with
  | zero =>
    unfold Term.ofValue? Term.ofValue
    cases v.view with
    | inl a => rfl
    | inr t =>
      dsimp only
      cases slot? t <;> rfl
  | succ depth ih =>
    unfold Term.ofValue? Term.ofValue
    cases hview : v.view with
    | inl a => rfl
    | inr t =>
      have ht : met t := hv t (by rw [Value.eq_table_of_view hview]; rfl)
      dsimp only
      cases slot? t with
      | some i => rfl
      | none =>
        dsimp only
        rw [(hlisted t ht).eq, Option.bind_eq_bind, Option.bind_some, Term.fieldsOf?_eq
          (fun v hv => ih fun u hu => hclosed t ht u (Census.mem_children_item hv hu))
          fun e he => ⟨ih fun u hu => hclosed t ht u (Census.mem_children_field he (.inl hu)),
            ih fun u hu => hclosed t ht u (Census.mem_children_field he (.inr hu))⟩]
        rfl

/-- **Documents are made without a panic** where all tables in them are listed. -/
theorem Document.ofBindings?_eq (o : Options) (form : Form) {c : Census} {es : List Entry}
    (hslots : ∀ t ∈ Document.slotted form c, met t) (hes : ∀ t ∈ Listing.tablesOf es, met t) :
    Document.ofBindings? H o form c es = some (Document.ofBindings H o form c es) := by
  have hterm {v : Value} (hv : ∀ t ∈ v.table?, met t) :=
    Term.ofValue?_eq hlisted hclosed (Document.slotIn? (Document.slotted form c))
      o.limits.maxDepth hv
  have hboth {e : Entry} (he : ∀ u, e.1 = .table u ∨ e.2 = .table u → met u) :=
    And.intro (hterm fun t ht => he t (.inl (Value.eq_table_of_table? ht)))
      (hterm fun t ht => he t (.inr (Value.eq_table_of_table? ht)))
  unfold Document.ofBindings? Document.ofBindings
  dsimp only
  rw [Document.fills?_eq (fun t ht => hlisted t (hslots t ht)) fun t ht e he =>
      hboth fun u hu => hclosed t (hslots t ht) u (Heap.mem_children.2 ⟨e, he, hu⟩),
    Option.bind_eq_bind, Option.bind_some, mapM_eq_some_map (g := fun e => (⟨_, _⟩ : Binding))
      fun e he => ?_]
  · rfl
  · obtain ⟨hk, hv⟩ := hboth fun u hu => hes u (Listing.mem_tablesOf.2 ⟨e, he, hu⟩)
    rw [hk, hv]
    rfl

end

/-! ## Saving -/

namespace Save

/-- The entries that are to be written, in no order: those of the bindings, and nil for the required
keys that have none. -/
def written (H : Heap) (bindings : TableId) (required : Option TableId) : List Entry :=
  ((H.table bindings).entries ++ missing H bindings required).filter fun e => !e.1.isHandle

/-- **No sort panics** for some bindings: neither that of the entries to be written, nor that of a
table that can be reached from them. -/
structure Sorts (H : Heap) (bindings : TableId) (required : Option TableId) : Prop where
  entries : (entriesOf? H bindings required).isSome
  tables : ∀ t, Census.Reach H.below (Listing.tablesOf (written H bindings required)) t → H.Listed t

variable {σ : Type} {check : Check σ} {H : Heap} {o : Options} {bindings t : TableId}
  {required : Option TableId} {form : Form}

theorem Sorts.entriesOf?_eq (hs : Sorts H bindings required) :
    entriesOf? H bindings required = some (entriesOf H bindings required) := by
  obtain ⟨es, hes⟩ := Option.isSome_iff_exists.1 hs.entries
  rw [entriesOf, hes, Option.getD_some]

section

variable (h : H.WellFormed)
include h

theorem reach_entriesOf_iff :
    Census.Reach H.children (Listing.tablesOf (entriesOf H bindings required)) t ↔
      Census.Reach H.below (Listing.tablesOf (written H bindings required)) t := by
  have hroots (t : TableId) : t ∈ Listing.tablesOf (entriesOf H bindings required) ↔
      t ∈ Listing.tablesOf (written H bindings required) :=
    ((perm_entriesOf H bindings required).flatMap_right _).mem_iff
  exact Census.Reach.congr hroots fun t _ => (Heap.perm_children h t).mem_iff

theorem inHeap_entriesOf : ∀ v ∈ (entriesOf H bindings required).flatMap fun e => [e.1, e.2],
    v.InHeap H :=
  inHeap_values fun _ he => inHeap_of_mem_entriesOf h he

/-- **The census of the entries to be written panics** unless all tables in it are listed. -/
theorem censusOf?_eq_some_iff {c : Census} :
    censusOf? H (entriesOf H bindings required) = some c ↔
      c = censusOf H (entriesOf H bindings required) ∧
        ∀ t, Census.Reach H.below (Listing.tablesOf (written H bindings required)) t →
          H.Listed t := by
  rw [censusOf?, Census.ofValues?_eq_some_iff h (inHeap_entriesOf h), filterMap_values]
  simp only [reach_entriesOf_iff h]
  rfl

/-- Bindings sort if their entries and the census of them are made. -/
theorem sorts_iff : Sorts H bindings required ↔ ∃ es c,
    entriesOf? H bindings required = some es ∧ censusOf? H es = some c := by
  constructor
  · intro hs
    exact ⟨_, _, hs.entriesOf?_eq, (censusOf?_eq_some_iff h).2 ⟨rfl, hs.tables⟩⟩
  · rintro ⟨es, c, hes, hc⟩
    have heq : entriesOf H bindings required = es := by rw [entriesOf, hes, Option.getD_some]
    rw [← heq] at hc
    exact ⟨by rw [hes]; rfl, ((censusOf?_eq_some_iff h).1 hc).2⟩

/-- **Where no sort panics, every document is made.** -/
theorem Sorts.ofBindings?_eq (hs : Sorts H bindings required) (o : Options) (form : Form) :
    Document.ofBindings? H o form (censusOf H (entriesOf H bindings required))
        (entriesOf H bindings required) =
      some (Document.ofBindings H o form (censusOf H (entriesOf H bindings required))
        (entriesOf H bindings required)) := by
  have hlisted (t : TableId)
      (ht : Census.Reach H.children (Listing.tablesOf (entriesOf H bindings required)) t) :
      H.Listed t := hs.tables t ((reach_entriesOf_iff h).1 ht)
  have hslots (t : TableId)
      (ht : t ∈ Document.slotted form (censusOf H (entriesOf H bindings required))) :
      Census.Reach H.children (Listing.tablesOf (entriesOf H bindings required)) t := by
    rw [← filterMap_values]
    exact (Census.mem_all_iff h (inHeap_entriesOf h)).1 (mem_all_of_mem_slotted ht)
  exact Document.ofBindings?_eq hlisted (fun t ht u hu => .child ht hu) o form hslots
    fun t ht => .root ht

/-- **Where no sort panics, everything is rendered.** -/
theorem Sorts.render?_eq (hs : Sorts H bindings required) (o : Options) (form : Form) :
    render? H o (censusOf H (entriesOf H bindings required)) (entriesOf H bindings required) form =
      some (render H o (censusOf H (entriesOf H bindings required))
        (entriesOf H bindings required) form) := by
  unfold render? render
  rw [hs.ofBindings?_eq h]
  rfl

end

/-- The document of bindings in a form. -/
def document? (H : Heap) (o : Options) (bindings : TableId) (required : Option TableId)
    (form : Form) : Option Document := do
  let es ← entriesOf? H bindings required
  let c ← censusOf? H es
  Document.ofBindings? H o form c es

/-- The same where no sort panics. -/
def document (H : Heap) (o : Options) (bindings : TableId) (required : Option TableId)
    (form : Form) : Document :=
  let es := entriesOf H bindings required
  Document.ofBindings H o form (censusOf H es) es

/-- The text of bindings in a form, unless a table is too deep. -/
def rendering? (H : Heap) (o : Options) (bindings : TableId) (required : Option TableId)
    (form : Form) : Option (Except Error String) := do
  let es ← entriesOf? H bindings required
  let c ← censusOf? H es
  render? H o c es form

/-- The same where no sort panics. -/
def rendering (H : Heap) (o : Options) (bindings : TableId) (required : Option TableId)
    (form : Form) : Except Error String :=
  let es := entriesOf H bindings required
  render H o (censusOf H es) es form

section

variable (h : H.WellFormed)
include h

/-- Where no sort panics, the entries and their census are made first. -/
theorem Sorts.bind_eq {f : List Entry → Census → Option α} (hs : Sorts H bindings required) :
    (do
      let es ← entriesOf? H bindings required
      let c ← censusOf? H es
      f es c) = f (entriesOf H bindings required)
        (censusOf H (entriesOf H bindings required)) := by
  rw [hs.entriesOf?_eq, Option.bind_eq_bind, Option.bind_some,
    (censusOf?_eq_some_iff h).2 ⟨rfl, hs.tables⟩, Option.bind_eq_bind, Option.bind_some]

/-- Where a sort panics, nothing comes of them. -/
theorem bind_of_not_sorts {f : List Entry → Census → Option α} (hs : ¬Sorts H bindings required) :
    (do
      let es ← entriesOf? H bindings required
      let c ← censusOf? H es
      f es c) = none := by
  refine Option.eq_none_iff_forall_ne_some.2 fun a ha => hs ?_
  obtain ⟨es, hes, ha⟩ := Option.bind_eq_some_iff.1 ha
  obtain ⟨c, hc, -⟩ := Option.bind_eq_some_iff.1 ha
  exact (sorts_iff h).2 ⟨es, c, hes, hc⟩

theorem Sorts.document?_eq (hs : Sorts H bindings required) :
    document? H o bindings required form = some (document H o bindings required form) :=
  (hs.bind_eq h).trans (hs.ofBindings?_eq h o form)

theorem Sorts.rendering?_eq (hs : Sorts H bindings required) :
    rendering? H o bindings required form = some (rendering H o bindings required form) :=
  (hs.bind_eq h).trans (hs.render?_eq h o form)

theorem rendering?_of_not_sorts (hs : ¬Sorts H bindings required) :
    rendering? H o bindings required form = none := bind_of_not_sorts h hs

/-- **There is a rendering exactly where no sort panics.** -/
theorem rendering?_eq_some_iff {r : Except Error String} :
    rendering? H o bindings required form = some r ↔
      Sorts H bindings required ∧ rendering H o bindings required form = r := by
  by_cases hs : Sorts H bindings required
  · rw [hs.rendering?_eq h, Option.some_inj, and_iff_right hs]
  · rw [rendering?_of_not_sorts h hs]
    exact ⟨fun hr => (nomatch hr), fun hr => absurd hr.1 hs⟩

end

/-! ## Attempts -/

/-- What runs with a checker is lifted step by step. -/
theorem lift_bind (p : StateM σ α) (f : α → StateM σ β) :
    (OptionT.lift (p >>= f) : Saving σ β) = OptionT.lift p >>= fun a => OptionT.lift (f a) := rfl

theorem run_lift (p : StateM σ α) (s : σ) :
    (OptionT.lift p : Saving σ α).run.run s = (some (p.run s).1, (p.run s).2) := rfl

theorem tryForm?_eq {c : Census} {es : List Entry}
    (hr : render? H o c es form = some (render H o c es form)) :
    tryForm? check H o c es form = OptionT.lift (tryForm check H o c es form) := by
  unfold tryForm? tryForm
  rw [hr, Option.getM, pure_bind]
  cases render H o c es form with
  | error e => rfl
  | ok text =>
    refine (bind_congr fun r => ?_).trans (lift_bind (check text) _).symm
    cases r <;> rfl

theorem climb?_eq {c : Census} {es : List Entry}
    (hr : ∀ form, render? H o c es form = some (render H o c es form)) (form : Form) :
    climb? check H o c es form = OptionT.lift (climb check H o c es form) := by
  fun_induction climb check H o c es form with
  | case1 form ih =>
    rw [climb?, tryForm?_eq (hr _), lift_bind]
    refine bind_congr fun tried => ?_
    cases tried.outcome with
    | ok text => rfl
    | error e =>
      dsimp only
      cases hnext : (effective o c form).next? with
      | none => rfl
      | some next =>
        dsimp only
        rw [ih next hnext]
        rfl

/-- All attempts of a ladder. -/
def attempts? (check : Check σ) (H : Heap) (o : Options) (bindings : TableId)
    (required : Option TableId) : Saving σ (List Attempt) := do
  let es ← (entriesOf? H bindings required).getM
  let c ← (censusOf? H es).getM
  climb? check H o c es o.form

section

variable (h : H.WellFormed) (s : σ)
include h

/-- Where no sort panics, the entries and their census are made first. -/
theorem Sorts.saving_bind_eq {f : List Entry → Census → Saving σ β}
    (hs : Sorts H bindings required) :
    (do
      let es ← (entriesOf? H bindings required).getM
      let c ← (censusOf? H es).getM
      f es c) = f (entriesOf H bindings required)
        (censusOf H (entriesOf H bindings required)) := by
  rw [hs.entriesOf?_eq, Option.getM, pure_bind, (censusOf?_eq_some_iff h).2 ⟨rfl, hs.tables⟩,
    Option.getM, pure_bind]

/-- **Where a sort panics, nothing else is done.** -/
theorem saving_bind_of_not_sorts {f : List Entry → Census → Saving σ β}
    (hs : ¬Sorts H bindings required) :
    (do
      let es ← (entriesOf? H bindings required).getM
      let c ← (censusOf? H es).getM
      f es c).run.run s = (none, s) := by
  cases hes : entriesOf? H bindings required with
  | none => rfl
  | some es =>
    rw [Option.getM, pure_bind]
    cases hc : censusOf? H es with
    | none => rfl
    | some c => exact absurd ((sorts_iff h).2 ⟨es, c, hes, hc⟩) hs

/-- **An attempt where no sort panics.** -/
theorem attempt?_of_sorts (hs : Sorts H bindings required) :
    attempt? check H o bindings required form =
      OptionT.lift (attempt check H o bindings required form) :=
  (hs.saving_bind_eq h).trans (tryForm?_eq (hs.render?_eq h o _))

theorem attempt?_of_not_sorts (hs : ¬Sorts H bindings required) :
    (attempt? check H o bindings required form).run.run s = (none, s) :=
  saving_bind_of_not_sorts h s hs

theorem attempts?_of_sorts (hs : Sorts H bindings required) :
    attempts? check H o bindings required =
      OptionT.lift (climb check H o (censusOf H (entriesOf H bindings required))
        (entriesOf H bindings required) o.form) :=
  (hs.saving_bind_eq h).trans (climb?_eq (hs.render?_eq h o) o.form)

theorem attempts?_of_not_sorts (hs : ¬Sorts H bindings required) :
    (attempts? check H o bindings required).run.run s = (none, s) :=
  saving_bind_of_not_sorts h s hs

/-- **Saving where no sort panics.** -/
theorem save?_of_sorts (hs : Sorts H bindings required) :
    save? check H o bindings required = OptionT.lift (save check H o bindings required) := by
  refine (hs.saving_bind_eq h).trans ?_
  rw [climb?_eq (hs.render?_eq h o)]
  rfl

theorem save?_of_not_sorts (hs : ¬Sorts H bindings required) :
    (save? check H o bindings required).run.run s = (none, s) :=
  saving_bind_of_not_sorts h s hs

omit s in
theorem isSome_save? (hs : Sorts H bindings required) (s : σ) :
    ((save? check H o bindings required).run.run s).1.isSome := by
  rw [save?_of_sorts h hs, run_lift]
  rfl

/-- There is an attempt exactly where no sort panics. -/
theorem run_attempt?_eq_some_iff {a : Attempt} {s' : σ} :
    (attempt? check H o bindings required form).run.run s = (some a, s') ↔
      Sorts H bindings required ∧
        (attempt check H o bindings required form).run s = (a, s') := by
  by_cases hs : Sorts H bindings required
  · rw [attempt?_of_sorts h hs, and_iff_right hs, run_lift]
    generalize (attempt check H o bindings required form).run s = r
    obtain ⟨b, s''⟩ := r
    constructor <;> rintro ⟨⟩ <;> rfl
  · rw [attempt?_of_not_sorts h s hs]
    exact ⟨fun heq => (nomatch (Prod.mk.inj heq).1), fun heq => absurd heq.1 hs⟩

end

end Save

end LuaGraph
