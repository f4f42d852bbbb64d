import LuaGraph.Alike
import LuaGraph.Proofs.Graph.Census
import LuaGraph.Proofs.Graph.Order
import LuaGraph.Proofs.Graph.Outline

/-!
# Structural equality

That two values are structurally equal (`deep_eq`) is said without walking through them: some
relation between tables matches every entry of one with an entry of the other (`Simulation`). The
walk arrives at such a relation, the pairs that it assumes at the end, as long as no pair that it
withdraws has served to find another one alike.

* A pair is withdrawn (`assumed.remove`) where a comparison fails. The failure is passed on to the
  start, unless it concerns one of several tables among the keys of a table: then the next key is
  tried.
* A pair can only serve to find another one alike in its own comparison if its tables lead back to
  themselves.

So the walk is sound on values in which no table with several tables among its keys leads to a cycle
(`Tame`). Otherwise it is not: the pairs that were found alike under a pair stay when it is
withdrawn.

Headlines:
* **`exists_simulation_of_alike`**: tame values that are found alike are structurally equal.
* **`alike_of_different`**: values that are not tame may be found alike although they differ.
-/

namespace LuaGraph

/-! ## Simulations -/

/-- Values that correspond: tables that are the same or in the relation, two NaNs, or any others
that are raw-equal. -/
inductive Related (R : TableId → TableId → Prop) : Value → Value → Prop
  | same (t : TableId) : Related R (.table t) (.table t)
  | tables {x y : TableId} : R x y → Related R (.table x) (.table y)
  | nans {m n : Number} : m.isNaN = true → n.isNaN = true → Related R (.number m) (.number n)
  | raw {a b : Value} : a.isTable = false → a.same b = true → Related R a b

/-- The second entry is a counterpart of the first: its value corresponds, and so does its key if
that is a table; any other key is raw-equal. -/
structure Counterpart (R : TableId → TableId → Prop) (e e' : Entry) : Prop where
  tableKey : e.1.isTable = true → Related R e.1 e'.1
  scalarKey : e.1.isTable = false → e.1.same e'.1 = true
  value : Related R e.2 e'.2

namespace Heap

/-- The tables have equally many entries, and each of the first has a counterpart. -/
structure Matches (H : Heap) (R : TableId → TableId → Prop) (x y : TableId) : Prop where
  size : (H.entries x).length = (H.entries y).length
  entries : ∀ e ∈ H.entries x, ∃ e' ∈ H.entries y, Counterpart R e e'

/-- **Related tables match.** -/
def Simulation (H : Heap) (R : TableId → TableId → Prop) : Prop := ∀ x y, R x y → H.Matches R x y

/-- The value at the end of a path of keys. -/
def follow (H : Heap) : Value → List Value → Option Value
  | v, [] => some v
  | .table t, k :: path => ((H.table t).get? k).bind (H.follow · path)
  | _, _ :: _ => none

end Heap

section

variable {H : Heap} {R S : TableId → TableId → Prop} {a b : Value} {e e' : Entry} {x y : TableId}

theorem Related.mono (h : Related R a b) (hRS : ∀ x y, b = .table y → R x y → S x y) :
    Related S a b := by
  cases h with
  | same t => exact .same t
  | tables h => exact .tables (hRS _ _ rfl h)
  | nans hm hn => exact .nans hm hn
  | raw ha hab => exact .raw ha hab

/-- What corresponds to a table is a table. -/
theorem Related.isTable_eq (h : Related R a b) : a.isTable = b.isTable := by
  cases h with
  | same | tables | nans => rfl
  | raw _ hab => cases a <;> cases b <;> first | rfl | cases hab

theorem Counterpart.mono (h : Counterpart R e e')
    (hRS : ∀ x y, e'.1 = .table y ∨ e'.2 = .table y → R x y → S x y) : Counterpart S e e' where
  tableKey ht := (h.tableKey ht).mono fun x y hy => hRS x y (.inl hy)
  scalarKey := h.scalarKey
  value := h.value.mono fun x y hy => hRS x y (.inr hy)

/-- Whether tables match depends on what is related to the tables in the second one only. -/
theorem Heap.Matches.mono (h : H.Matches R x y)
    (hRS : ∀ u w, w ∈ Listing.tablesOf (H.entries y) → R u w → S u w) : H.Matches S x y where
  size := h.size
  entries e he := by
    obtain ⟨e', he', hc⟩ := h.entries e he
    exact ⟨e', he', hc.mono fun u w hw => hRS u w (Listing.mem_tablesOf.2 ⟨e', he', hw⟩)⟩

end

/-! ## Raw equality -/

section

theorem Binary64.equal_self {x : Float} (h : isNaN x = false) : equal x x = true := by
  simp [equal, compare?, h]

/-- Only NaN is not the same as itself. -/
theorem Number.same_self {n : Number} (h : n.isNaN = false) : n.same n = true := by
  have hcanonical := isNaN_canonical h
  unfold same
  cases hn : n.canonical with
  | integer i => exact beq_self_eq_true i
  | float x =>
    rw [hn] at hcanonical
    exact Binary64.equal_self hcanonical

theorem Value.IsScalar.canonical {v : Value} (h : v.IsScalar) : v.canonical.IsScalar := by
  cases v with
  | number n => exact ⟨rfl, rfl⟩
  | _ => exact h

theorem Related.refl (R : TableId → TableId → Prop) (v : Value) : Related R v v := by
  cases v with
  | table t => exact .same t
  | number n =>
    cases hn : n.isNaN with
    | true => exact .nans hn hn
    | false => exact .raw rfl (Number.same_self hn)
  | nil => exact .raw rfl rfl
  | _ => exact .raw rfl (beq_self_eq_true _)

namespace Value.IsKey

variable {k l : Value}

/-- A key is raw-equal to itself. -/
theorem same_self (h : k.IsKey) : k.same k = true := by
  cases k with
  | nil => rfl
  | number n =>
    refine Number.same_self (Bool.eq_false_iff.2 fun hn => ?_)
    rw [IsKey, toKey, if_pos hn] at h
    cases h
  | _ => exact beq_self_eq_true _

/-- Raw-equal keys are the same key, unless they are handles. -/
theorem eq_of_same (h : k.IsKey) (h' : l.IsKey) (hh : k.isHandle = false)
    (heq : k.same l = true) : k = l := by
  cases k with
  | function f => cases hh
  | userdata f => cases hh
  | nil => cases h
  | number m =>
    cases l with
    | number n =>
      have hm : m.canonical = m := Value.number.inj h.canonical
      have hn : n.canonical = n := Value.number.inj h'.canonical
      rw [same, Number.same, hm, hn] at heq
      cases m <;> cases n <;> dsimp only at heq
      · rw [beq_iff_eq.1 heq]
      · cases heq
      · cases heq
      · obtain ⟨hx, hy, hplace⟩ := Binary64.equal_iff.1 heq
        rw [Binary64.eq_of_place hx hy (Binary64.place_ne_zero hm) hplace]
    | _ => cases heq
  | _ => cases l <;> simp_all [same]

end Value.IsKey

namespace Table

variable {t : Table}

theorem mem_of_get? {k v : Value} (h : t.get? k = some v) : (k.canonical, v) ∈ t.entries := by
  obtain ⟨es, es', hes, -⟩ := List.lookup_eq_some_iff.1 h
  rw [hes]
  exact List.mem_append_right _ (List.mem_cons_self ..)

theorem WellFormed.get?_of_mem (h : t.WellFormed) {e : Entry} (he : e ∈ t.entries) :
    t.get? e.1 = some e.2 := by
  rw [get?, (h.isKey_of_mem he).canonical]
  exact lookup_of_mem h.nodup he

end Table

end

/-! ## What can be reached -/

/-- What can be reached stays in a set with all children of its members. -/
theorem Census.Reach.mem {children : TableId → List TableId} {roots ts : List TableId}
    {t : TableId} (h : Reach children roots t) (hroots : ∀ u ∈ roots, u ∈ ts)
    (hchildren : ∀ u ∈ ts, ∀ v ∈ children u, v ∈ ts) : t ∈ ts := by
  induction h with
  | root h => exact hroots _ h
  | child _ h ih => exact hchildren _ ih _ h

namespace Heap

/-- The tables that can be reached from a value, itself included. -/
def Reaches (H : Heap) (v : Value) : TableId → Prop :=
  Census.Reach (fun u => Listing.tablesOf (H.entries u)) v.table?.toList

/-- No table in the value leads back to itself. -/
def Acyclic (H : Heap) (v : Value) : Prop := ∀ z, H.Reaches v z → ¬Leads H.entries z z

/-- **No table with two tables among its keys leads to a cycle.** -/
def Tame (H : Heap) (v : Value) : Prop :=
  ∀ y, H.Reaches v y → 2 ≤ (H.entries y).countP (fun e => e.1.isTable) →
    ∀ z, Leads H.entries y z → ¬Leads H.entries z z

variable {H : Heap} {v : Value} {y z : TableId} {e : Entry}

theorem reaches_self (H : Heap) (y : TableId) : H.Reaches (.table y) y :=
  .root (List.mem_singleton_self y)

theorem reaches_table_of_leads (h : Leads H.entries y z) : H.Reaches (.table y) z :=
  h.mono (fun _ hu => .child (reaches_self H y) hu) fun _ _ hu => hu

/-- What can be reached from the key or value of an entry can be reached from its table. -/
theorem leads_of_reaches (he : e ∈ H.entries y) (hv : v = e.1 ∨ v = e.2) (h : H.Reaches v z) :
    Leads H.entries y z := by
  refine h.mono (fun u hu => .root (Listing.mem_tablesOf.2 ⟨e, he, ?_⟩)) fun _ _ hu => hu
  rcases hv with rfl | rfl
  · left
    cases hk : e.1 <;> simp_all [Value.table?]
  · right
    cases hk : e.2 <;> simp_all [Value.table?]

theorem reaches_table_iff : H.Reaches (.table y) z ↔ z = y ∨ Leads H.entries y z := by
  constructor
  · intro h
    induction h with
    | root h => exact .inl (List.mem_singleton.1 h)
    | child _ h ih =>
      rcases ih with rfl | ih
      · exact .inr (.root h)
      · exact .inr (.child ih h)
  · rintro (rfl | h)
    · exact reaches_self H z
    · exact reaches_table_of_leads h

/-- A tame table has at most one table among its keys, or no cycle below it. -/
theorem Tame.acyclic_or (h : H.Tame (.table y)) :
    H.Acyclic (.table y) ∨ (H.entries y).countP (fun e => e.1.isTable) ≤ 1 := by
  by_cases hkeys : 2 ≤ (H.entries y).countP fun e => e.1.isTable
  · refine .inl fun z hz hcycle => ?_
    have hbelow := h y (reaches_self H y) hkeys
    rcases reaches_table_iff.1 hz with rfl | hz
    · exact hbelow z hcycle hcycle
    · exact hbelow z hz hcycle
  · exact .inr (by omega)

theorem Tame.of_mem (h : H.Tame (.table y)) (he : e ∈ H.entries y) (hv : v = e.1 ∨ v = e.2) :
    H.Tame v := fun u hu hkeys =>
  h u (reaches_table_of_leads (leads_of_reaches he hv hu)) hkeys

/-! ## Runs of a comparison -/

section

variable (run run' : StateM Assumed Bool) (f : Entry → StateM Assumed Bool) (s : Assumed)

theorem run_and : (run <&&> run') s =
    if (run s).1 = true then run' (run s).2 else (false, (run s).2) := by
  unfold andM
  cases hr : run s with
  | mk b s' =>
    simp only [bind, StateT.bind, hr]
    cases b <;> rfl

theorem run_allM_cons (e : Entry) (es : List Entry) : List.allM f (e :: es) s =
    if (f e s).1 = true then List.allM f es (f e s).2 else (false, (f e s).2) := by
  rw [List.allM]
  cases hr : f e s with
  | mk b s' =>
    simp only [bind, StateT.bind, hr]
    cases b <;> rfl

theorem run_anyM_cons (e : Entry) (es : List Entry) : List.anyM f (e :: es) s =
    if (f e s).1 = true then (true, (f e s).2) else List.anyM f es (f e s).2 := by
  rw [List.anyM]
  cases hr : f e s with
  | mk b s' =>
    simp only [bind, StateT.bind, hr]
    cases b <;> rfl

end

/-! ## Sound runs -/

/-- The pairs that are assumed, as a relation. -/
def Assumed.Holds (s : Assumed) (x y : TableId) : Prop := (x, y) ∈ s

/-- Assumptions are added to others: every new one is about a table below and matches under all of
them. -/
structure Assumed.Extends (H : Heap) (below : TableId → Prop) (s s' : Assumed) : Prop where
  subset : s ⊆ s'
  nodup : s'.Nodup
  fresh : ∀ p ∈ s', p ∈ s ∨ below p.2 ∧ H.Matches s'.Holds p.1 p.2

/-- A run is sound: if it succeeds it only adds assumptions, and what it has found out holds under
them. If it is *quiet* it only adds assumptions where it fails, too. -/
structure Sound (H : Heap) (below : TableId → Prop) (quiet : Prop) (run : StateM Assumed Bool)
    (found : Assumed → Prop) : Prop where
  assumed : ∀ s, s.Nodup → (run s).1 = true ∨ quiet → Assumed.Extends H below s (run s).2
  result : ∀ s, s.Nodup → (run s).1 = true → found (run s).2

section

variable {below below' : TableId → Prop} {quiet quiet' : Prop} {run run' : StateM Assumed Bool}
  {found found' : Assumed → Prop} {s s' s'' : Assumed}

theorem Assumed.Extends.refl (hs : s.Nodup) : Assumed.Extends H below s s :=
  ⟨fun _ h => h, hs, fun _ h => .inl h⟩

theorem Assumed.Extends.trans (h : Assumed.Extends H below s s')
    (h' : Assumed.Extends H below s' s'') : Assumed.Extends H below s s'' where
  subset := fun _ hp => h'.subset (h.subset hp)
  nodup := h'.nodup
  fresh p hp := by
    rcases h'.fresh p hp with hp | hp
    · rcases h.fresh p hp with hp | ⟨hbelow, hmatches⟩
      · exact .inl hp
      · exact .inr ⟨hbelow, hmatches.mono fun u w _ huw => h'.subset huw⟩
    · exact .inr hp

theorem Sound.weaken (h : Sound H below quiet run found) (hbelow : ∀ z, below z → below' z)
    (hquiet : quiet' → quiet) : Sound H below' quiet' run found where
  assumed s hs hrun := by
    obtain ⟨hsub, hnodup, hfresh⟩ := h.assumed s hs (hrun.imp id hquiet)
    exact ⟨hsub, hnodup, fun p hp => (hfresh p hp).imp id fun h => ⟨hbelow _ h.1, h.2⟩⟩
  result := h.result

theorem Sound.imp (h : Sound H below quiet run found) (hfound : ∀ s, found s → found' s) :
    Sound H below quiet run found' where
  assumed := h.assumed
  result s hs hrun := hfound _ (h.result s hs hrun)

theorem sound_pure {b : Bool} (h : b = true → ∀ s, found s) :
    Sound H below quiet (pure b) found where
  assumed _ hs _ := .refl hs
  result s _ hb := h hb s

/-- What is found under some assumptions holds under more of them. -/
def Lasting (found : Assumed → Prop) : Prop := ∀ s s' : Assumed, s ⊆ s' → found s → found s'

/-- A run that goes on with another where it succeeds. -/
theorem Sound.andThen {both : StateM Assumed Bool}
    (hboth : ∀ s, both s = if (run s).1 = true then run' (run s).2 else (false, (run s).2))
    (h : Sound H below quiet run found) (h' : Sound H below quiet run' found')
    (hl : Lasting found) : Sound H below quiet both fun s => found s ∧ found' s := by
  constructor
  · intro s hs hend
    rw [hboth] at hend ⊢
    split at hend
    · rename_i hb
      rw [if_pos hb]
      have hmore := h.assumed s hs (.inl hb)
      exact hmore.trans (h'.assumed _ hmore.nodup hend)
    · rename_i hb
      rw [if_neg hb]
      exact h.assumed s hs (.inr (hend.resolve_left Bool.false_ne_true))
  · intro s hs hend
    rw [hboth] at hend ⊢
    split at hend
    · rename_i hb
      rw [if_pos hb]
      have hnodup := (h.assumed s hs (.inl hb)).nodup
      have hmore := (h'.assumed _ hnodup (.inl hend)).subset
      exact ⟨hl _ _ hmore (h.result s hs hb), h'.result _ hnodup hend⟩
    · exact absurd hend Bool.false_ne_true

/-- A run that goes on with another where it fails has to be quiet. -/
theorem Sound.orElse {either : StateM Assumed Bool}
    (heither : ∀ s, either s = if (run s).1 = true then (true, (run s).2) else run' (run s).2)
    (h : Sound H below quiet run found) (h' : Sound H below quiet run' found)
    (hquiet : ∀ s, (either s).1 = true ∨ quiet → (run s).1 = true ∨ quiet) :
    Sound H below quiet either found := by
  constructor
  · intro s hs hend
    have hmore := h.assumed s hs (hquiet s hend)
    rw [heither] at hend ⊢
    split at hend
    · rename_i hb
      rwa [if_pos hb]
    · rename_i hb
      rw [if_neg hb]
      exact hmore.trans (h'.assumed _ hmore.nodup hend)
  · intro s hs hend
    have hmore := h.assumed s hs (hquiet s (.inl hend))
    rw [heither] at hend ⊢
    split at hend
    · rename_i hb
      rw [if_pos hb]
      exact h.result s hs hb
    · rename_i hb
      rw [if_neg hb]
      exact h'.result _ hmore.nodup hend

/-- Every entry passes. -/
theorem sound_allM {f : Entry → StateM Assumed Bool} {passed : Entry → Assumed → Prop}
    (hl : ∀ e, Lasting (passed e)) {es : List Entry}
    (h : ∀ e ∈ es, Sound H below quiet (f e) (passed e)) :
    Sound H below quiet (es.allM f) fun s => ∀ e ∈ es, passed e s := by
  induction es with
  | nil => exact sound_pure fun _ s e he => absurd he List.not_mem_nil
  | cons e es ih =>
    have hrest := ih fun e' he' => h e' (List.mem_cons_of_mem e he')
    refine ((h e (List.mem_cons_self ..)).andThen (fun s => run_allM_cons f s e es) hrest
      (hl e)).imp ?_
    rintro s ⟨hfirst, hrest⟩ e' he'
    rcases List.mem_cons.1 he' with rfl | he'
    · exact hfirst
    · exact hrest e' he'

/-- Entries without a table key are passed over. -/
theorem run_anyM_of_forall {f : Entry → StateM Assumed Bool} {es : List Entry}
    (hskip : ∀ e ∈ es, e.1.isTable = false → f e = pure false)
    (hes : ∀ e ∈ es, e.1.isTable = false) (s : Assumed) : es.anyM f s = (false, s) := by
  induction es with
  | nil => rfl
  | cons e es ih =>
    have he : f e s = (false, s) := by
      rw [hskip e (List.mem_cons_self ..) (hes e (List.mem_cons_self ..))]
      rfl
    rw [run_anyM_cons, he, if_neg Bool.false_ne_true]
    exact ih (fun e' he' => hskip e' (List.mem_cons_of_mem e he'))
      fun e' he' => hes e' (List.mem_cons_of_mem e he')

/-- **Some table key passes.** A run that is not quiet must not have a second table key to try when
the first has failed. -/
theorem sound_anyM {f : Entry → StateM Assumed Bool} {es : List Entry}
    (hskip : ∀ e ∈ es, e.1.isTable = false → f e = pure false)
    (h : ∀ e ∈ es, e.1.isTable = true → Sound H below quiet (f e) found)
    (hkeys : quiet ∨ es.countP (fun e => e.1.isTable) ≤ 1) :
    Sound H below quiet (es.anyM f) found := by
  induction es with
  | nil => exact sound_pure fun hb => absurd hb Bool.false_ne_true
  | cons e es ih =>
    have hskip' (e' : Entry) (he' : e' ∈ es) := hskip e' (List.mem_cons_of_mem e he')
    have hrest := ih hskip' fun e' he' => h e' (List.mem_cons_of_mem e he')
    cases ht : e.1.isTable with
    | false =>
      have he (s : Assumed) : (e :: es).anyM f s = es.anyM f s := by
        have hfirst : f e s = (false, s) := by
          rw [hskip e (List.mem_cons_self ..) ht]
          rfl
        rw [run_anyM_cons, hfirst, if_neg Bool.false_ne_true]
      rw [show (e :: es).anyM f = es.anyM f from funext he]
      exact hrest (by simpa [ht] using hkeys)
    | true =>
      have hfirst := h e (List.mem_cons_self ..) ht
      rw [List.countP_cons_of_pos (by simpa using ht)] at hkeys
      have hnone (hkeys : es.countP (fun e => e.1.isTable) + 1 ≤ 1) (s : Assumed) :
          es.anyM f s = (false, s) :=
        run_anyM_of_forall hskip' (fun e' he' => Bool.eq_false_iff.2
          (List.countP_eq_zero.1 (by omega : es.countP (fun e => e.1.isTable) = 0) e' he')) s
      refine hfirst.orElse (fun s => run_anyM_cons f s e es)
        (hrest (hkeys.imp id fun hkeys => by omega)) fun s hend => ?_
      rcases hkeys with hquiet | hkeys
      · exact .inr hquiet
      · refine hend.imp (fun hend => ?_) id
        rw [run_anyM_cons] at hend
        split at hend
        · assumption
        · rw [hnone hkeys] at hend
          exact absurd hend Bool.false_ne_true

end

/-! ## The walk -/

section

variable {s : Assumed} {a b : Value}

theorem lasting_related (a b : Value) : Lasting fun s => Related s.Holds a b :=
  fun _ _ hsub h => h.mono fun _ _ _ hxy => hsub hxy

theorem lasting_counterpart (y : TableId) (e : Entry) :
    Lasting fun s => ∃ e' ∈ H.entries y, Counterpart s.Holds e e' :=
  fun _ _ hsub ⟨e', he', h⟩ => ⟨e', he', h.mono fun _ _ _ hxy => hsub hxy⟩

theorem related_of_alikeScalars {R : TableId → TableId → Prop} (h : alikeScalars a b = true) :
    Related R a b := by
  unfold alikeScalars at h
  split at h
  · rename_i m n
    rcases Bool.or_eq_true_iff.1 h with h | h
    · obtain ⟨hm, hn⟩ := Bool.and_eq_true_iff.1 h
      exact .nans hm hn
    · exact .raw rfl h
  · cases a with
    | table t =>
      cases b with
      | table u =>
        obtain rfl : t = u := by simpa [Value.same] using h
        exact .same t
      | _ => cases h
    | _ => exact .raw rfl h

/-- An entry has a counterpart in a table, if comparing with what is in the table is sound. -/
theorem sound_hasCounterpart (h : H.WellFormed) {compare : Comparison} {x : TableId}
    {quiet : Prop} (he : e ∈ H.entries x)
    (hcompare : ∀ e' ∈ H.entries y, ∀ a b, b = e'.1 ∨ b = e'.2 →
      Sound H (Leads H.entries y) quiet (compare a b) fun s => Related s.Holds a b)
    (hkeys : quiet ∨ (H.entries y).countP (fun e => e.1.isTable) ≤ 1) :
    Sound H (Leads H.entries y) quiet (hasCounterpart compare (H.table y) e)
      fun s => ∃ e' ∈ H.entries y, Counterpart s.Holds e e' := by
  unfold hasCounterpart
  cases ht : e.1.isTable with
  | true =>
    rw [if_pos rfl]
    refine sound_anyM (fun e' _ ht' => by simp [ht']) (fun e' he' ht' => ?_) hkeys
    simp only [ht', if_true]
    refine ((hcompare e' he' e.1 e'.1 (.inl rfl)).andThen (run_and _ _)
      (hcompare e' he' e.2 e'.2 (.inr rfl)) (lasting_related _ _)).imp ?_
    rintro s ⟨hkey, hvalue⟩
    exact ⟨e', he', fun _ => hkey, fun hf => Bool.noConfusion (ht.symm.trans hf), hvalue⟩
  | false =>
    rw [if_neg Bool.false_ne_true]
    cases hv : (H.table y).get? e.1 with
    | none => exact sound_pure fun hb => absurd hb Bool.false_ne_true
    | some v =>
      have hisKey : e.1.IsKey := (h.tables x).1.isKey_of_mem he
      have hmem : (e.1, v) ∈ H.entries y := by
        rw [← hisKey.canonical]
        exact Table.mem_of_get? hv
      refine (hcompare (e.1, v) hmem e.2 v (.inr rfl)).imp fun s hvalue => ?_
      exact ⟨(e.1, v), hmem, fun hf => Bool.noConfusion (ht.symm.trans hf),
        fun _ => hisKey.same_self, hvalue⟩

theorem sound_alikeTables (h : H.WellFormed) {compare : Comparison} {x : TableId} {quiet : Prop}
    (hcompare : ∀ e' ∈ H.entries y, ∀ a b, b = e'.1 ∨ b = e'.2 →
      Sound H (Leads H.entries y) quiet (compare a b) fun s => Related s.Holds a b)
    (hkeys : quiet ∨ (H.entries y).countP (fun e => e.1.isTable) ≤ 1) :
    Sound H (Leads H.entries y) quiet (alikeTables compare (H.table x) (H.table y))
      fun s => H.Matches s.Holds x y := by
  unfold alikeTables
  split
  · rename_i hsize
    refine (sound_allM (lasting_counterpart y) fun e he =>
      sound_hasCounterpart h he hcompare hkeys).imp fun s hall => ⟨hsize, hall⟩
  · exact sound_pure fun hb => absurd hb Bool.false_ne_true

theorem alikeFrom_table (H : Heap) (depth : Nat) (x y : TableId) (s : Assumed) :
    alikeFrom H (depth + 1) (.table x) (.table y) s =
      if x == y || s.holds x y then (true, s)
      else
        let r := alikeTables (alikeFrom H depth) (H.table x) (H.table y) ((x, y) :: s)
        (r.1, if r.1 then r.2 else r.2.erase (x, y)) := by
  rw [alikeFrom]
  rfl

/-- Comparing two tables one level deeper, where the pair was not assumed before. -/
theorem extends_alikeTables {x : TableId} {run : StateM Assumed Bool} (hs : s.Nodup)
    (hnew : (x, y) ∉ s) (hrun : Sound H (Leads H.entries y) (H.Acyclic (.table y)) run
      fun s => H.Matches s.Holds x y)
    (hend : (run ((x, y) :: s)).1 = true ∨ H.Acyclic (.table y)) :
    Assumed.Extends H (H.Reaches (.table y)) s
      (if (run ((x, y) :: s)).1 then (run ((x, y) :: s)).2
        else (run ((x, y) :: s)).2.erase (x, y)) := by
  have hs' : ((x, y) :: s).Nodup := List.nodup_cons.2 ⟨hnew, hs⟩
  have hmore := hrun.assumed _ hs' hend
  cases hr : (run ((x, y) :: s)).1 with
  | true =>
    rw [if_pos rfl]
    refine ⟨fun p hp => hmore.subset (List.mem_cons_of_mem _ hp), hmore.nodup, fun p hp => ?_⟩
    rcases hmore.fresh p hp with hp | ⟨hbelow, hmatches⟩
    · rcases List.mem_cons.1 hp with rfl | hp
      · exact .inr ⟨reaches_self H y, hrun.result _ hs' hr⟩
      · exact .inl hp
    · exact .inr ⟨reaches_table_of_leads hbelow, hmatches⟩
  | false =>
    rw [if_neg Bool.false_ne_true]
    have hquiet := hend.resolve_left (by rw [hr]; exact Bool.false_ne_true)
    refine ⟨fun p hp => ?_, hmore.nodup.erase _, fun p hp => ?_⟩
    · refine (List.mem_erase_of_ne ?_).2 (hmore.subset (List.mem_cons_of_mem _ hp))
      rintro rfl
      exact hnew hp
    · obtain ⟨hne, hp⟩ := hmore.nodup.mem_erase_iff.1 hp
      rcases hmore.fresh p hp with hp | ⟨hbelow, hmatches⟩
      · exact .inl ((List.mem_cons.1 hp).resolve_left hne)
      · -- without cycles the pair is not needed for those below it
        refine .inr ⟨reaches_table_of_leads hbelow, hmatches.mono fun u w hw huw => ?_⟩
        refine (List.mem_erase_of_ne ?_).2 huw
        rintro heq
        obtain rfl : w = y := congrArg Prod.snd heq
        exact hquiet w (reaches_self H w) (.child hbelow hw)

/-- Comparing two tables is sound if comparing what is in them is. -/
theorem sound_alikeFrom_table {depth : Nat} {x : TableId}
    (htables : Sound H (Leads H.entries y) (H.Acyclic (.table y))
      (alikeTables (alikeFrom H depth) (H.table x) (H.table y)) fun s => H.Matches s.Holds x y) :
    Sound H (H.Reaches (.table y)) (H.Acyclic (.table y))
      (alikeFrom H (depth + 1) (.table x) (.table y))
      fun s => Related s.Holds (.table x) (.table y) := by
  have hnew {s : Assumed} (hassumed : ¬(x == y || s.holds x y) = true) : (x, y) ∉ s :=
    fun hmem => hassumed (Bool.or_eq_true_iff.2 (.inr (Assumed.holds_iff.2 hmem)))
  constructor
  · intro s hs hend
    rw [alikeFrom_table] at hend ⊢
    split at hend
    · rename_i hassumed
      rw [if_pos hassumed]
      exact .refl hs
    · rename_i hassumed
      rw [if_neg hassumed]
      exact extends_alikeTables hs (hnew hassumed) htables hend
  · intro s hs hend
    rw [alikeFrom_table] at hend ⊢
    split at hend
    · rename_i hassumed
      rw [if_pos hassumed]
      rcases Bool.or_eq_true_iff.1 hassumed with heq | hmem
      · obtain rfl := beq_iff_eq.1 heq
        exact .same x
      · exact .tables (Assumed.holds_iff.1 hmem)
    · rename_i hassumed
      rw [if_neg hassumed]
      have hs' : ((x, y) :: s).Nodup := List.nodup_cons.2 ⟨hnew hassumed, hs⟩
      dsimp only at hend ⊢
      rw [if_pos hend]
      exact .tables ((htables.assumed _ hs' (.inl hend)).subset (List.mem_cons_self ..))

theorem alikeFrom_of_not_table (H : Heap) (depth : Nat)
    (h : a.isTable = false ∨ b.isTable = false) :
    alikeFrom H depth a b = pure (alikeScalars a b) := by
  cases depth with
  | zero => simp only [alikeFrom]
  | succ depth =>
    unfold alikeFrom
    split
    · exact absurd h (by simp [Value.isTable, Value.kind])
    · rfl

/-- **The walk is sound** on tame values, and quiet on those without cycles. -/
theorem sound_alikeFrom (h : H.WellFormed) (depth : Nat) (a b : Value) (hb : H.Tame b) :
    Sound H (H.Reaches b) (H.Acyclic b) (alikeFrom H depth a b) fun s => Related s.Holds a b := by
  induction depth generalizing a b with
  | zero =>
    simp only [alikeFrom]
    exact sound_pure fun hab s => related_of_alikeScalars hab
  | succ depth ih =>
    by_cases hnot : a.isTable = false ∨ b.isTable = false
    · rw [alikeFrom_of_not_table H _ hnot]
      exact sound_pure fun hab s => related_of_alikeScalars hab
    · obtain ⟨x, rfl⟩ : ∃ x, a = .table x := by cases a <;> simp_all [Value.isTable, Value.kind]
      obtain ⟨y, rfl⟩ : ∃ y, b = .table y := by cases b <;> simp_all [Value.isTable, Value.kind]
      refine sound_alikeFrom_table (sound_alikeTables h (fun e' he' a b hv => ?_) hb.acyclic_or)
      have hbelow (z : TableId) : H.Reaches b z → Leads H.entries y z := leads_of_reaches he' hv
      exact (ih a b (hb.of_mem he' hv)).weaken hbelow fun hquiet z hz =>
        hquiet z (reaches_table_of_leads (hbelow z hz))

end

end Heap

/-! ## Paths -/

namespace Heap

variable {H : Heap} {R : TableId → TableId → Prop} {a b : Value}

/-- **Structurally equal values have corresponding values along every path of scalar keys.** -/
theorem Simulation.follow_eq_some (h : H.WellFormed) (hR : H.Simulation R) (hab : Related R a b)
    {path : List Value} (hpath : ∀ k ∈ path, k.IsScalar) {v : Value}
    (hv : H.follow a path = some v) : ∃ w, H.follow b path = some w ∧ Related R v w := by
  induction path generalizing a b with
  | nil =>
    cases hv
    exact ⟨b, rfl, hab⟩
  | cons k path ih =>
    have hk := (hpath k (List.mem_cons_self ..)).canonical
    cases a with
    | table x =>
      rw [follow] at hv
      obtain ⟨u, hu, hv⟩ := Option.bind_eq_some_iff.1 hv
      cases hab with
      | same =>
        refine ⟨v, ?_, .refl R v⟩
        rw [follow, hu]
        exact hv
      | @tables _ y hxy =>
        -- the entry under the key has a counterpart, which can only be under the same key
        obtain ⟨e', he', hc⟩ := (hR x y hxy).entries _ (Table.mem_of_get? hu)
        have hx := (h.tables x).1.isKey_of_mem (Table.mem_of_get? hu)
        have hy := (h.tables y).1.isKey_of_mem he'
        have hkey : k.canonical = e'.1 := hx.eq_of_same hy hk.2 (hc.scalarKey hk.1)
        have hu' : (H.table y).get? k = some e'.2 := by
          rw [← (h.tables y).1.get?_of_mem he', ← hkey]
          unfold Table.get?
          rw [Value.canonical_canonical]
        obtain ⟨w, hw, hvw⟩ := ih hc.value (fun l hl => hpath l (List.mem_cons_of_mem k hl)) hv
        refine ⟨w, ?_, hvw⟩
        rw [follow, hu']
        exact hw
      | raw ht => cases ht
    | _ => cases hv

/-- **Tame values that are found alike are structurally equal**: some simulation relates them, and
with them what stands at the end of a path of scalar keys. -/
theorem exists_simulation_of_alike (h : H.WellFormed) (hb : H.Tame b) (hab : H.alike a b = true) :
    ∃ R, H.Simulation R ∧ Related R a b ∧
      ∀ path : List Value, (∀ k ∈ path, k.IsScalar) → ∀ v, H.follow a path = some v →
        ∃ w, H.follow b path = some w ∧ Related R v w := by
  have hsound := sound_alikeFrom h (H.size * H.size) a b hb
  have hmore := hsound.assumed [] .nil (.inl hab)
  have hrelated := hsound.result [] .nil hab
  have hsimulation : H.Simulation (Assumed.Holds (alikeFrom H (H.size * H.size) a b []).2) :=
    fun x y hxy => ((hmore.fresh _ hxy).resolve_left List.not_mem_nil).2
  exact ⟨_, hsimulation, hrelated, fun path hpath v hv =>
    hsimulation.follow_eq_some h hrelated hpath hv⟩

/-- Two tables that lead back to themselves and hold a table of two table keys each. -/
def twoRings : Heap where
  tables := #[⟨[(.string "next", .table 0), (.string "keys", .table 2)], 0⟩,
    ⟨[(.string "next", .table 1), (.string "keys", .table 3)], 0⟩,
    ⟨[(.table 4, .boolean true), (.table 5, .boolean true)], 0⟩,
    ⟨[(.table 6, .boolean true), (.table 4, .boolean true)], 0⟩,
    {}, ⟨[(.index 1, .string "x")], 1⟩, ⟨[(.index 1, .string "x")], 1⟩]

theorem tame_twoRings : twoRings.Tame (.table 1) := by
  intro y hy hkeys z hz hcycle
  have hy : y ∈ [1, 3, 4, 6] := hy.mem (by decide) (by decide +kernel)
  have hz (hthree : y = 3) : z ∈ [4, 6] :=
    hz.mem (by subst hthree; decide +kernel) (by decide +kernel)
  have hleaf : ∀ z ∈ [4, 6], Listing.tablesOf (twoRings.entries z) = [] := by decide +kernel
  have hthree : y = 3 := by
    have hall : ∀ y ∈ [1, 3, 4, 6],
        2 ≤ (twoRings.entries y).countP (fun e => e.1.isTable) → y = 3 := by decide +kernel
    exact hall y hy hkeys
  have hnone : z ∈ [] := hcycle.mem (by simp [hleaf z (hz hthree)]) (by simp)
  exact List.not_mem_nil hnone

theorem exists_simulation_twoRings :
    twoRings.WellFormed ∧ twoRings.Tame (.table 1) ∧
      twoRings.alike (.table 0) (.table 1) = true ∧
      ∃ R, twoRings.Simulation R ∧ Related R (.table 0) (.table 1) := by
  have hwf : twoRings.WellFormed := by decide +kernel
  have halike : twoRings.alike (.table 0) (.table 1) = true := by decide +kernel
  obtain ⟨R, hsimulation, hrelated, -⟩ := exists_simulation_of_alike hwf tame_twoRings halike
  exact ⟨hwf, tame_twoRings, halike, R, hsimulation, hrelated⟩

/-- Two tables with two table keys each, one of which leads back. Trying the key `2` of the first
for the key `4` of the second fails, but meanwhile `5` and `6` were found alike under that pair. -/
def withdrawn : Heap where
  tables := #[
    ⟨[(.table 2, .boolean true), (.table 3, .boolean true), (.string "z", .table 5)], 0⟩,
    ⟨[(.table 4, .boolean true), (.table 2, .boolean true), (.string "z", .table 6)], 0⟩,
    ⟨[(.string "q", .table 5), (.string "s", .number (.integer 1))], 0⟩,
    ⟨[(.string "q", .table 5), (.string "s", .number (.integer 1))], 0⟩,
    ⟨[(.string "q", .table 6), (.string "s", .number (.integer 2))], 0⟩,
    ⟨[(.string "p", .table 2)], 0⟩, ⟨[(.string "p", .table 4)], 0⟩]

/-- **Values that are not tame may be found alike although they differ** by a scalar at the end of a
path of strings. -/
theorem alike_of_different : withdrawn.WellFormed ∧
    withdrawn.alike (.table 0) (.table 1) = true ∧
    (∃ path : List Value, (∀ k ∈ path, k.IsScalar) ∧
      withdrawn.follow (.table 0) path = some (.number (.integer 1)) ∧
      withdrawn.follow (.table 1) path = some (.number (.integer 2))) ∧
    ∀ R, withdrawn.Simulation R → ¬Related R (.table 0) (.table 1) := by
  have hwf : withdrawn.WellFormed := by decide +kernel
  have hpath : ∀ k ∈ [Value.string "z", .string "p", .string "s"], k.IsScalar := by
    simp [Value.IsScalar, Value.isTable, Value.isHandle, Value.kind]
  have hone : withdrawn.follow (.table 0) [.string "z", .string "p", .string "s"] =
      some (.number (.integer 1)) := by decide +kernel
  have htwo : withdrawn.follow (.table 1) [.string "z", .string "p", .string "s"] =
      some (.number (.integer 2)) := by decide +kernel
  refine ⟨hwf, by decide +kernel, ⟨_, hpath, hone, htwo⟩, fun R hR hrelated => ?_⟩
  obtain ⟨w, hw, hvw⟩ := hR.follow_eq_some hwf hrelated hpath hone
  cases htwo.symm.trans hw
  cases hvw with
  | nans h => cases h
  | raw _ h => exact absurd h (by decide)

end Heap

end LuaGraph
