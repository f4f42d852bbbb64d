import LuaGraph.Proofs.Alike.Complete
import Mathlib.Data.Fintype.EquivFin

/-!
# When comparisons are symmetric

A comparison (`deep_eq_tables`) matches every entry of the first table with an entry of the second,
and does not ask whether two of them are matched with the same one. Entries under scalars cannot be:
raw equality leaves one candidate. Entries under table keys can, but then they are alike themselves.
So where no table has two such entries (`Separated`), the entries correspond one to one, and the
other side is matched, too.

That entries with a common counterpart are alike is found by going from the first to the counterpart
and back to the second, which needs the symmetry of everything below. Tame values have two table
keys only where nothing leads to a cycle, and there symmetry is proved from the leaves up.

Headlines:
* `Similar`: the largest simulation, which is transitive (`Similar.trans`).
* **`alike_comm`**: on tame values whose entries are told apart, comparisons are symmetric.
* **`alike_of_shared_counterpart`**: otherwise they may not be, not even without cycles.
-/

namespace LuaGraph

/-! ## Raw equality is symmetric and transitive -/

section

namespace Number

variable {l m n : Number}

theorem canonical_of_isNaN (h : n.isNaN = true) : n.canonical = n := by
  cases n with
  | integer i => rfl
  | float x =>
    have hle : Binary64.infinity ≤ Binary64.magnitude x := Nat.le_of_lt (of_decide_eq_true h)
    simp [canonical, Binary64.toInt?, hle]

/-- NaN is the same as nothing. -/
theorem isNaN_of_same (h : m.same n = true) : m.isNaN = false := by
  refine Bool.eq_false_iff.2 fun hm => ?_
  rw [same, canonical_of_isNaN hm] at h
  cases m with
  | integer i => cases hm
  | float x =>
    cases hn : n.canonical with
    | integer i => simp [hn] at h
    | float y =>
      rw [hn] at h
      exact Bool.eq_false_iff.1 (Binary64.equal_iff.1 h).1 hm

theorem same_symm (h : m.same n = true) : n.same m = true := by
  unfold same at h ⊢
  cases hm : m.canonical <;> cases hn : n.canonical <;> simp_all [Binary64.equal_iff]

theorem same_trans (h : l.same m = true) (h' : m.same n = true) : l.same n = true := by
  unfold same at h h' ⊢
  cases hl : l.canonical <;> cases hm : m.canonical <;> cases hn : n.canonical <;>
    simp_all [Binary64.equal_iff]

end Number

namespace Value

variable {a b c : Value}

theorem same_symm (h : a.same b = true) : b.same a = true := by
  cases a <;> cases b <;> simp_all [same]
  exact Number.same_symm h

theorem same_trans (h : a.same b = true) (h' : b.same c = true) : a.same c = true := by
  cases a <;> cases b <;> cases c <;> simp_all [same]
  exact Number.same_trans h h'

end Value

end

section

variable {R S T : TableId → TableId → Prop} {a b c : Value} {e e' e'' : Entry}

/-- What corresponds does so the other way round, if the tables do. -/
theorem Related.flip (h : Related R a b) (hR : ∀ x y, a = .table x → b = .table y → R x y → S y x) :
    Related S b a := by
  cases h with
  | same t => exact .same t
  | tables h => exact .tables (hR _ _ rfl rfl h)
  | nans hm hn => exact .nans hn hm
  | raw ha hab =>
    refine .raw ?_ (Value.same_symm hab)
    rw [← (Related.raw (R := R) ha hab).isTable_eq]
    exact ha

theorem Related.trans (h : Related R a b) (h' : Related R b c) (hR : ∀ x y, R x y → S x y)
    (hRR : ∀ x y z, R x y → R y z → S x z) : Related S a c := by
  cases h with
  | same t => exact h'.mono fun x y _ => hR x y
  | tables hxy =>
    cases h' with
    | same => exact .tables (hR _ _ hxy)
    | tables hyz => exact .tables (hRR _ _ _ hxy hyz)
    | raw ht => cases ht
  | nans hm hn =>
    cases h' with
    | nans _ hl => exact .nans hm hl
    | @raw _ c _ hsame =>
      cases c with
      | number l => exact absurd hn (Bool.eq_false_iff.1 (Number.isNaN_of_same hsame))
      | _ => cases hsame
  | @raw a b ht hsame =>
    cases h' with
    | same => cases a <;> simp_all [Value.same, Value.isTable, Value.kind]
    | tables => cases a <;> simp_all [Value.same, Value.isTable, Value.kind]
    | nans hm =>
      have hsame := Value.same_symm hsame
      cases a with
      | number l => exact absurd hm (Bool.eq_false_iff.1 (Number.isNaN_of_same hsame))
      | _ => cases hsame
    | raw _ hsame' => exact .raw ht (Value.same_trans hsame hsame')

/-- A counterpart the other way round. -/
theorem Counterpart.flip (h : Counterpart R e e')
    (hR : ∀ x y, e.1 = .table x ∨ e.2 = .table x → e'.1 = .table y ∨ e'.2 = .table y →
      R x y → S y x) : Counterpart S e' e := by
  have hkey : e'.1.isTable = true → e.1.isTable = true := by
    intro ht
    cases he : e.1.isTable with
    | true => rfl
    | false =>
      have hrelated := (Related.raw (R := R) he (h.scalarKey he)).isTable_eq
      rwa [← hrelated, he] at ht
  refine ⟨fun ht => ?_, fun ht => ?_, ?_⟩
  · exact (h.tableKey (hkey ht)).flip fun x y hx hy => hR x y (.inl hx) (.inl hy)
  · refine Value.same_symm (h.scalarKey (Bool.eq_false_iff.2 fun he => ?_))
    rw [(h.tableKey he).isTable_eq, ht] at he
    cases he
  · exact h.value.flip fun x y hx hy => hR x y (.inr hx) (.inr hy)

theorem Counterpart.trans (h : Counterpart R e e') (h' : Counterpart R e' e'')
    (hR : ∀ x y, R x y → S x y) (hRR : ∀ x y z, R x y → R y z → S x z) :
    Counterpart S e e'' where
  tableKey ht := by
    have hkey := h.tableKey ht
    exact hkey.trans (h'.tableKey (hkey.isTable_eq ▸ ht)) hR hRR
  scalarKey ht := by
    have hkey := Related.raw (R := R) ht (h.scalarKey ht)
    exact Value.same_trans (h.scalarKey ht) (h'.scalarKey (hkey.isTable_eq ▸ ht))
  value := h.value.trans h'.value hR hRR

end

namespace Heap

/-! ## The largest simulation -/

/-- Some simulation relates the tables. -/
def Similar (H : Heap) (x y : TableId) : Prop := ∃ R, H.Simulation R ∧ R x y

section

variable {H : Heap} {a b : Value} {x y z : TableId}

theorem simulation_similar (H : Heap) : H.Simulation H.Similar := by
  rintro x y ⟨R, hR, hxy⟩
  exact (hR x y hxy).mono fun u w _ huw => ⟨R, hR, huw⟩

/-- Tables that match are similar. -/
theorem similar_of_matches (h : H.Matches H.Similar x y) : H.Similar x y := by
  refine ⟨fun u w => H.Similar u w ∨ u = x ∧ w = y, ?_, .inr ⟨rfl, rfl⟩⟩
  rintro u w (huw | ⟨rfl, rfl⟩)
  · exact (simulation_similar H u w huw).mono fun _ _ _ => .inl
  · exact h.mono fun _ _ _ => .inl

theorem Similar.trans (h : H.Similar x y) (h' : H.Similar y z) : H.Similar x z := by
  refine ⟨fun u w => H.Similar u w ∨ ∃ v, H.Similar u v ∧ H.Similar v w, ?_, .inr ⟨y, h, h'⟩⟩
  rintro u w (huw | ⟨v, huv, hvw⟩)
  · exact (simulation_similar H u w huw).mono fun _ _ _ => .inl
  · have hfirst := simulation_similar H u v huv
    have hsecond := simulation_similar H v w hvw
    refine ⟨hfirst.size.trans hsecond.size, fun e he => ?_⟩
    obtain ⟨e', he', hc⟩ := hfirst.entries e he
    obtain ⟨e'', he'', hc'⟩ := hsecond.entries e' he'
    exact ⟨e'', he'', hc.trans hc' (fun _ _ => .inl) fun _ _ _ h h' => .inr ⟨_, h, h'⟩⟩

/-- Tame values that are found alike are similar. -/
theorem related_of_alike (h : H.WellFormed) (hb : H.Tame b) (hab : H.alike a b = true) :
    Related H.Similar a b := by
  have hsound := sound_alikeFrom h (H.size * H.size) a b hb
  have hmore := hsound.assumed [] .nil (.inl hab)
  refine (hsound.result [] .nil hab).mono fun x y _ hxy => ⟨_, fun u w huw => ?_, hxy⟩
  exact ((hmore.fresh _ huw).resolve_left List.not_mem_nil).2

/-! ## Counterparts of counterparts -/

/-- Where nothing is matched twice and there are equally many on both sides, everything is
matched. -/
theorem exists_matched {α : Type} {P : α → α → Prop} {es es' : List α} (hn : es.Nodup)
    (hlength : es.length = es'.length) (hall : ∀ e ∈ es, ∃ e' ∈ es', P e e')
    (honce : ∀ e₁ ∈ es, ∀ e₂ ∈ es, ∀ e' ∈ es', P e₁ e' → P e₂ e' → e₁ = e₂) :
    ∀ e' ∈ es', ∃ e ∈ es, P e e' := by
  intro e' he'
  have : Nonempty α := ⟨e'⟩
  choose! f hf using hall
  have hnodup : (es.map f).Nodup := hn.map_on fun e₁ he₁ e₂ he₂ heq =>
    honce e₁ he₁ e₂ he₂ (f e₁) (hf e₁ he₁).1 (hf e₁ he₁).2 (heq ▸ (hf e₂ he₂).2)
  have hsub : es.map f ⊆ es' := by
    intro x hx
    obtain ⟨e, he, rfl⟩ := List.mem_map.1 hx
    exact (hf e he).1
  have hperm := (List.subperm_of_subset hnodup hsub).perm_of_length_le (by simp [hlength])
  obtain ⟨e, he, rfl⟩ := List.mem_map.1 (hperm.mem_iff.2 he')
  exact ⟨e, he, (hf e he).2⟩

/-- No table key has two candidates. -/
def Apart (H : Heap) (x : TableId) : Prop :=
  ∀ e₁ ∈ H.entries x, ∀ e₂ ∈ H.entries x, e₁.1.isTable = true → e₂.1.isTable = true →
    ∀ y < H.size, ∀ e' ∈ H.entries y, Counterpart H.Similar e₁ e' → Counterpart H.Similar e₂ e' →
      e₁ = e₂

/-- **If no table keys share a counterpart, every entry is one.** -/
theorem Matches.exists_entry (h : H.WellFormed) (hl : H.Labelled) (hx : x < H.size)
    (hy : y < H.size) (hm : H.Matches H.Similar x y) (hapart : H.Apart x) :
    ∀ e' ∈ H.entries y, ∃ e ∈ H.entries x, Counterpart H.Similar e e' := by
  have hkeyed := h.keyed hl
  refine exists_matched (hkeyed.nodup x hx).of_map hm.size hm.entries
    fun e₁ he₁ e₂ he₂ e' he' hc₁ hc₂ => ?_
  have hscalar {e : Entry} (he : e ∈ H.entries x) (hc : Counterpart H.Similar e e')
      (ht : e.1.isTable = false) : e.1 = e'.1 :=
    hkeyed.eq_of_same hx hy he he' (hc.scalarKey ht)
  have heq (hkey : e₁.1 = e₂.1) : e₁ = e₂ :=
    List.inj_on_of_nodup_map (hkeyed.nodup x hx) he₁ he₂ hkey
  cases ht₁ : e₁.1.isTable <;> cases ht₂ : e₂.1.isTable
  · exact heq ((hscalar he₁ hc₁ ht₁).trans (hscalar he₂ hc₂ ht₂).symm)
  · have htable := (hc₂.tableKey ht₂).isTable_eq
    rw [ht₂, ← hscalar he₁ hc₁ ht₁, ht₁] at htable
    cases htable
  · have htable := (hc₁.tableKey ht₁).isTable_eq
    rw [ht₁, ← hscalar he₂ hc₂ ht₂, ht₂] at htable
    cases htable
  · exact hapart e₁ he₁ e₂ he₂ ht₁ ht₂ y hy e' he' hc₁ hc₂

/-! ## Entries that are told apart -/

/-- No two of the entries that stand under table keys are alike. -/
def TellsApart (H : Heap) (es : List Entry) : Prop :=
  ∀ e ∈ es, ∀ e' ∈ es, e.1.isTable = true → e'.1.isTable = true → H.alike e.1 e'.1 = true →
    H.alike e.2 e'.2 = true → e = e'

instance (H : Heap) (es : List Entry) : Decidable (H.TellsApart es) :=
  inferInstanceAs (Decidable (∀ e ∈ es, ∀ e' ∈ es, _ → _))

/-- **No table of the value has two entries under table keys that are alike.** -/
def Separated (H : Heap) (v : Value) : Prop := ∀ x, H.Reaches v x → H.TellsApart (H.entries x)

theorem leads_trans (h : Leads H.entries x y) (h' : Leads H.entries y z) :
    Leads H.entries x z :=
  h'.mono (fun _ hu => .child h hu) fun _ _ hu => hu

theorem Reaches.trans (h : H.Reaches a x) (h' : H.Reaches (.table x) z) : H.Reaches a z :=
  Census.Reach.trans h h'

/-- Entries are told apart if what they lead to is similar the other way round, too. -/
theorem Separated.apart (h : H.WellFormed) (hl : H.Labelled)
    (hs : H.Separated (.table x))
    (hback : ∀ z, Leads H.entries x z → ∀ w < H.size, H.Similar z w → H.Similar w z) :
    H.Apart x := by
  intro e₁ he₁ e₂ he₂ ht₁ ht₂ y hy e' he' hc₁ hc₂
  have hboth {v₁ v₂ v' : Value} (hv₁ : v₁.InHeap H) (hv₂ : v₂.InHeap H) (hv' : v'.InHeap H)
      (hchild : ∀ z, v₂ = .table z → Leads H.entries x z)
      (h₁ : Related H.Similar v₁ v') (h₂ : Related H.Similar v₂ v') :
      H.alike v₁ v₂ = true := by
    have hflip : Related H.Similar v' v₂ := h₂.flip fun z w hz hw hzw =>
      hback z (hchild z hz) w (hv' w hw) hzw
    exact (h.keyed hl).alike_of_related (simulation_similar H) hv₁ hv₂
      (h₁.trans hflip (fun _ _ => id) fun _ _ _ => Similar.trans)
  obtain ⟨hk₁, hv₁⟩ := h.closed x e₁ he₁
  obtain ⟨hk₂, hv₂⟩ := h.closed x e₂ he₂
  obtain ⟨hk', hv'⟩ := h.closed y e' he'
  have hchild (z : TableId) (hz : e₂.1 = .table z ∨ e₂.2 = .table z) : Leads H.entries x z :=
    .root (Listing.mem_tablesOf.2 ⟨e₂, he₂, hz⟩)
  exact hs x (reaches_self H x) e₁ he₁ e₂ he₂ ht₁ ht₂
    (hboth hk₁ hk₂ hk' (fun z hz => hchild z (.inl hz)) (hc₁.tableKey ht₁) (hc₂.tableKey ht₂))
    (hboth hv₁ hv₂ hv' (fun z hz => hchild z (.inr hz)) hc₁.value hc₂.value)

theorem Separated.of_reaches (hs : H.Separated a) (hx : H.Reaches a x) :
    H.Separated (.table x) := fun z hz => hs z (Reaches.trans hx hz)

theorem Acyclic.of_leads (hac : H.Acyclic (.table x)) (hz : Leads H.entries x z) :
    H.Acyclic (.table z) := fun w hw =>
  hac w (Reaches.trans (reaches_table_of_leads hz) hw)

theorem Tame.of_reaches (ht : H.Tame a) (hx : H.Reaches a x) : H.Tame (.table x) :=
  fun z hz => ht z (Reaches.trans hx hz)

/-! ## Symmetry -/

/-- **Induction from the leaves up**: below a table without cycles there are finitely many tables,
none of which leads to itself. -/
theorem Acyclic.induction (h : H.WellFormed) {P : TableId → Prop}
    (step : ∀ x < H.size, H.Acyclic (.table x) → (∀ z, Leads H.entries x z → P z) → P x) :
    ∀ x < H.size, H.Acyclic (.table x) → P x := by
  have hfinite : Finite {t : Fin H.size // ¬Leads H.entries t t} := inferInstance
  have hwf : WellFounded fun z x : {t : Fin H.size // ¬Leads H.entries t t} =>
      Leads H.entries x.1 z.1 := by
    have : IsTrans _ fun z x : {t : Fin H.size // ¬Leads H.entries t t} =>
        Leads H.entries x.1 z.1 := ⟨fun _ _ _ hyz hxy => leads_trans hxy hyz⟩
    have : Std.Irrefl fun z x : {t : Fin H.size // ¬Leads H.entries t t} =>
        Leads H.entries x.1 z.1 := ⟨fun t => t.2⟩
    exact Finite.wellFounded_of_trans_of_irrefl _
  have hall (x : {t : Fin H.size // ¬Leads H.entries t t}) :
      H.Acyclic (.table x.1) → P x.1 := by
    induction x using hwf.induction with
    | _ x ih =>
      intro hac
      refine step x.1 x.1.2 hac fun z hz => ?_
      have hbelow := hac.of_leads hz
      exact ih ⟨⟨z, h.lt_of_leads hz⟩, hbelow z (reaches_self H z)⟩ hz hbelow
  intro x hx hac
  exact hall ⟨⟨x, hx⟩, hac x (reaches_self H x)⟩ hac

/-- Without cycles, what is similar is so the other way round. -/
theorem similar_symm_of_acyclic (h : H.WellFormed) (hl : H.Labelled) (hx : x < H.size)
    (hac : H.Acyclic (.table x)) (hs : H.Separated (.table x)) (hy : y < H.size)
    (hxy : H.Similar x y) : H.Similar y x := by
  refine Acyclic.induction h (P := fun x => H.Separated (.table x) →
    ∀ y < H.size, H.Similar x y → H.Similar y x) (fun x hx _ ih hs y hy hxy => ?_)
    x hx hac hs y hy hxy
  have hback (z : TableId) (hz : Leads H.entries x z) (w : TableId) (hw : w < H.size)
      (hzw : H.Similar z w) : H.Similar w z :=
    ih z hz (hs.of_reaches (reaches_table_of_leads hz)) w hw hzw
  have hm := simulation_similar H x y hxy
  refine similar_of_matches ⟨hm.size.symm, fun e' he' => ?_⟩
  obtain ⟨e, he, hc⟩ := hm.exists_entry h hl hx hy (hs.apart h hl hback) e' he'
  obtain ⟨hk', hv'⟩ := h.closed y e' he'
  exact ⟨e, he, hc.flip fun z w hz hw hzw =>
    hback z (.root (Listing.mem_tablesOf.2 ⟨e, he, hz⟩)) w (hw.elim (hk' w) (hv' w)) hzw⟩

/-- A table with one table among its keys has no two to confuse. -/
theorem apart_of_countP_le (hkeys : (H.entries x).countP (fun e => e.1.isTable) ≤ 1) :
    H.Apart x := by
  intro e₁ he₁ e₂ he₂ ht₁ ht₂ _ _ _ _ _ _
  rw [List.countP_eq_length_filter] at hkeys
  have hmem {e : Entry} (he : e ∈ H.entries x) (ht : e.1.isTable = true) :
      e ∈ (H.entries x).filter fun e => e.1.isTable := List.mem_filter.2 ⟨he, ht⟩
  have hmem₁ := hmem he₁ ht₁
  have hmem₂ := hmem he₂ ht₂
  clear hmem
  generalize (H.entries x).filter (fun e => e.1.isTable) = es at hkeys hmem₁ hmem₂
  obtain ⟨e, hes⟩ : ∃ e, es ⊆ [e] := by
    cases es with
    | nil => exact absurd hmem₁ List.not_mem_nil
    | cons e es =>
      rw [List.length_cons] at hkeys
      rw [List.length_eq_zero_iff.1 (by omega : es.length = 0)]
      exact ⟨e, List.Subset.refl _⟩
  rw [List.mem_singleton.1 (hes hmem₁), List.mem_singleton.1 (hes hmem₂)]

/-- In tame values whose entries are told apart, no table keys share a counterpart. -/
theorem Tame.apart (h : H.WellFormed) (hl : H.Labelled)
    (ht : H.Tame (.table x)) (hs : H.Separated (.table x)) : H.Apart x := by
  rcases ht.acyclic_or with hac | hkeys
  · refine hs.apart h hl fun z hz w hw hzw => ?_
    exact similar_symm_of_acyclic h hl (h.lt_of_leads hz) (hac.of_leads hz)
      (hs.of_reaches (reaches_table_of_leads hz)) hw hzw
  · exact apart_of_countP_le hkeys

/-- **What is similar to a tame value whose entries are told apart is so the other way round.** -/
theorem related_symm (h : H.WellFormed) (hl : H.Labelled) (ha : a.InHeap H) (hb : b.InHeap H)
    (ht : H.Tame a) (hs : H.Separated a) (hab : Related H.Similar a b) :
    ∃ R, H.Simulation R ∧ Related R b a := by
  have hlt (x : TableId) (hx : H.Reaches a x) : x < H.size := by
    cases hx with
    | root hx => exact ha x (by cases a <;> simp_all [Value.table?])
    | child _ hx => exact h.lt_of_leads (.root hx)
  refine ⟨fun y x => H.Similar x y ∧ y < H.size ∧ H.Reaches a x, ?_, hab.flip ?_⟩
  · rintro y x ⟨hxy, hy, hx⟩
    have hm := simulation_similar H x y hxy
    have hapart := (ht.of_reaches hx).apart h hl (hs.of_reaches hx)
    refine ⟨hm.size.symm, fun e' he' => ?_⟩
    obtain ⟨e, he, hc⟩ := hm.exists_entry h hl (hlt x hx) hy hapart e' he'
    obtain ⟨hk', hv'⟩ := h.closed y e' he'
    exact ⟨e, he, hc.flip fun z w hz hw hzw => ⟨hzw, hw.elim (hk' w) (hv' w),
      .child hx (Listing.mem_tablesOf.2 ⟨e, he, hz⟩)⟩⟩
  · rintro x y rfl rfl hxy
    exact ⟨hxy, hb y rfl, reaches_self H x⟩

/-- **Comparisons of tame values are symmetric** if no two entries under table keys are alike in any
of their tables. -/
theorem alike_comm (h : H.WellFormed) (hl : H.Labelled) (ha : a.InHeap H) (hb : b.InHeap H)
    (hta : H.Tame a) (htb : H.Tame b) (hsa : H.Separated a) (hsb : H.Separated b) :
    H.alike a b = H.alike b a := by
  have himp {a b : Value} (ha : a.InHeap H) (hb : b.InHeap H) (hta : H.Tame a) (htb : H.Tame b)
      (hsa : H.Separated a) (hab : H.alike a b = true) : H.alike b a = true := by
    obtain ⟨R, hR, hba⟩ := related_symm h hl ha hb hta hsa (related_of_alike h htb hab)
    exact (h.keyed hl).alike_of_related hR hb ha hba
  exact Bool.eq_iff_iff.2 ⟨himp ha hb hta htb hsa, himp hb ha htb hta hsb⟩

/-- Where tables lead to later ones only, there is no cycle. -/
theorem acyclic_of_ascending
    (hup : ∀ t < H.size, ∀ u ∈ Listing.tablesOf (H.entries t), t < u) (v : Value) :
    H.Acyclic v := by
  have hchild {t u : TableId} (hu : u ∈ Listing.tablesOf (H.entries t)) : t < u := by
    obtain ⟨e, he, -⟩ := Listing.mem_tablesOf.1 hu
    exact hup t (lt_size_of_mem he) u hu
  have hlt {x z : TableId} (hz : Leads H.entries x z) : x < z := by
    induction hz with
    | root hz => exact hchild hz
    | child _ hz ih => exact Nat.lt_trans ih (hchild hz)
  exact fun z _ hz => Nat.lt_irrefl z (hlt hz)

theorem Acyclic.tame (hac : H.Acyclic a) : H.Tame a := fun _ hx _ z hz =>
  hac z (Reaches.trans hx (reaches_table_of_leads hz))

end

/-- Two tables with the same two table keys in another order. -/
def mirrored : Heap where
  tables := #[⟨[(.table 2, .boolean true), (.table 3, .boolean true)], 0⟩,
    ⟨[(.table 5, .boolean true), (.table 4, .boolean true)], 0⟩,
    {}, ⟨[(.index 1, .string "x")], 1⟩, {}, ⟨[(.index 1, .string "x")], 1⟩]

theorem alike_comm_mirrored :
    mirrored.WellFormed ∧ mirrored.Labelled ∧ (∀ v, mirrored.Tame v ∧ mirrored.Separated v) ∧
      mirrored.alike (.table 0) (.table 1) = true ∧
      mirrored.alike (.table 1) (.table 0) = true := by
  have hall : mirrored.WellFormed ∧ mirrored.Labelled ∧
      (∀ t < mirrored.size, ∀ u ∈ Listing.tablesOf (mirrored.entries t), t < u) ∧
      (∀ t < mirrored.size, mirrored.TellsApart (mirrored.entries t)) ∧
      mirrored.alike (.table 0) (.table 1) = true := by decide +kernel
  obtain ⟨hwf, hl, hup, happart, halike⟩ := hall
  have htame (v : Value) : mirrored.Tame v := (acyclic_of_ascending hup v).tame
  have hseparated (v : Value) : mirrored.Separated v := fun t _ e he =>
    happart t (lt_size_of_mem he) e he
  have hin (t : TableId) (ht : t < mirrored.size) : (Value.table t).InHeap mirrored :=
    fun u hu => Value.table.inj hu ▸ ht
  have hcomm := alike_comm hwf hl (hin 0 (by decide)) (hin 1 (by decide)) (htame _) (htame _)
    (hseparated _) (hseparated _)
  exact ⟨hwf, hl, fun v => ⟨htame v, hseparated v⟩, halike, hcomm.symm.trans halike⟩

/-- A table with two alike table keys, and one with the same key and another one. -/
def confused : Heap where
  tables := #[⟨[(.table 2, .number (.integer 1)), (.table 3, .number (.integer 1))], 0⟩,
    ⟨[(.table 4, .number (.integer 1)), (.table 5, .number (.integer 1))], 0⟩,
    {}, {}, {}, ⟨[(.string "x", .number (.integer 1))], 0⟩]

/-- **Two entries may share a counterpart**: both table keys of the first table are matched with the
same one, and the other key of the second table is left over. -/
theorem alike_of_shared_counterpart :
    confused.WellFormed ∧ confused.Labelled ∧
      (∀ t < confused.size, ∀ u ∈ Listing.tablesOf (confused.entries t), t < u) ∧
      confused.alike (.table 0) (.table 1) = true ∧
      confused.alike (.table 1) (.table 0) = false := by
  decide +kernel

end Heap

end LuaGraph
