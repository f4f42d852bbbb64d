import LuaGraph.Proofs.Alike
import LuaGraph.Proofs.Data.Trees

/-!
# Tags

An alternative that holds something becomes a table with its tag as the only key (`tagged`).
Assigning nil removes a key (`Table::set`), so a payload that converts to nil leaves a table without
entries, and the tag is lost; any other payload is the value of the one entry.

Results: `toValue_tagged`, and **`tag_lost_iff`**: what alternatives with different tags become is
alike exactly if both tags are lost.
-/

namespace LuaGraph

namespace Data

/-- The tag of an alternative. -/
def tag? : Data → Option String
  | alternative tag => some tag
  | tagged tag _ => some tag
  | _ => none

/-- An alternative that holds what converts to nil. -/
def LosesTag (d : Data) : Prop := ∃ tag p H H', d = tagged tag p ∧ p.toValue H = .ok (.nil, H')

end Data

/-- The entries of a new table in which a value is stored under a tag. -/
def tagEntries (tag : String) (v : Value) : List Entry :=
  if v = .nil then [] else [(.string tag, v)]

/-! ## Alternatives as values -/

section

open Build

variable {H H₁ H' : Heap} {v w : Value} {d p : Data} {tag : String}

/-- **A payload is stored under its tag in a new table**, and nothing else changes. -/
theorem toValue_tagged (tag : String) (hp : p.toValue H = .ok (w, H₁)) :
    ∃ H', (Data.tagged tag p).toValue H = .ok (.table H₁.size, H') ∧
      (H'.table H₁.size).entries = tagEntries tag w ∧ H'.size = H₁.size + 1 ∧
      ∀ t : Nat, t < H₁.size → H'.table t = H₁.table t := by
  have hsize : H₁.size < (H₁.add .empty).2.size := by
    rw [Heap.size_add]
    exact Nat.lt_succ_self _
  refine ⟨(H₁.add .empty).2.update H₁.size (·.write (.string tag) w),
    bind_eq_ok.2 ⟨w, H₁, hp, rfl⟩, ?_, ?_, fun t ht => ?_⟩
  · rw [Heap.table_update, if_pos ⟨rfl, hsize⟩, Heap.table_add, if_pos rfl,
      Table.entries_write_empty, tagEntries]
  · rw [Heap.size_update, Heap.size_add]
  · have hne := Nat.ne_of_lt ht
    rw [Heap.table_update, if_neg fun h => hne h.1, Heap.table_add, if_neg hne]

/-- What an alternative becomes: its tag, or a table with what it holds under its tag. -/
theorem toValue_eq_ok_of_tag (htag : d.tag? = some tag) (h : d.toValue H = .ok (v, H')) :
    (v = .string tag ∧ ¬ d.LosesTag) ∨
      ∃ t w, v = .table t ∧ (H'.table t).entries = tagEntries tag w ∧ (d.LosesTag ↔ w = .nil) := by
  cases d with
  | alternative tag' =>
    cases htag
    cases h
    refine .inl ⟨rfl, ?_⟩
    rintro ⟨_, _, _, _, hd, -⟩
    cases hd
  | tagged tag' p =>
    cases htag
    obtain ⟨w, H₁, hp, -⟩ := bind_eq_ok.1 h
    obtain ⟨H₂, hv, hentries, -⟩ := toValue_tagged tag hp
    cases hv.symm.trans h
    refine .inr ⟨H₁.size, w, rfl, hentries, ?_, ?_⟩
    · rintro ⟨_, _, G, G', hd, hnil⟩
      cases hd
      cases hp.symm.trans (Data.toValue_eq_of_isTable_eq_false p hnil rfl H)
      rfl
    · rintro rfl
      exact ⟨tag, p, H, H₁, rfl, hp⟩
  | _ => cases htag

end

/-! ## Alike alternatives -/

namespace Heap

variable {H : Heap} {t u : TableId} {a b : String} {v w : Value}

/-- Tables for different tags are alike exactly if both are without entries. -/
theorem alike_tagEntries (hab : a ≠ b) (htu : t ≠ u) (hlt : 0 < H.size)
    (ht : (H.table t).entries = tagEntries a v) (hu : (H.table u).entries = tagEntries b w) :
    H.alike (.table t) (.table u) = true ↔ v = .nil ∧ w = .nil := by
  obtain ⟨depth, hdepth⟩ := Nat.exists_eq_succ_of_ne_zero (Nat.mul_pos hlt hlt).ne'
  have hnew : ¬ ((t == u || Assumed.holds [] t u) = true) := by
    simpa [Assumed.holds] using htu
  rw [alike, hdepth, alikeFrom_table, if_neg hnew]
  dsimp only
  unfold alikeTables Table.size
  rw [ht, hu]
  unfold tagEntries
  by_cases hv : v = .nil <;> by_cases hw : w = .nil
  · rw [if_pos hv, if_pos hw]
    exact ⟨fun _ => ⟨hv, hw⟩, fun _ => rfl⟩
  · rw [if_pos hv, if_neg hw]
    exact ⟨fun h => (Bool.false_ne_true h).elim, fun h => (hw h.2).elim⟩
  · rw [if_neg hv, if_pos hw]
    exact ⟨fun h => (Bool.false_ne_true h).elim, fun h => (hv h.1).elim⟩
  · -- the tag of the first is no key of the second
    have hmissing : (H.table u).get? (.string a) = none := by
      unfold Table.get?
      rw [hu, tagEntries, if_neg hw]
      have hne : ((Value.string a).canonical == Value.string b) = false := by
        simpa [Value.canonical] using hab
      rw [List.lookup_cons, hne]
      rfl
    have hentry (compare : Comparison) (s : Assumed) :
        hasCounterpart compare (H.table u) (.string a, v) s = (false, s) := by
      have hscalar : ¬ (Value.string a).isTable = true := Bool.false_ne_true
      unfold hasCounterpart
      rw [if_neg hscalar, hmissing]
      rfl
    rw [if_neg hv, if_neg hw, List.length_singleton, List.length_singleton, if_pos rfl,
      run_allM_cons, hentry]
    exact ⟨fun h => (Bool.false_ne_true h).elim, fun h => (hv h.1).elim⟩

/-- A scalar that is alike a table there is not. -/
theorem alike_string_table (H : Heap) (a : String) (t : TableId) :
    H.alike (.string a) (.table t) = false ∧ H.alike (.table t) (.string a) = false := by
  unfold alike
  constructor
  · rw [alikeFrom_of_not_table H _ (.inl rfl)]
    rfl
  · rw [alikeFrom_of_not_table H _ (.inr rfl)]
    rfl

theorem alike_string (H : Heap) (hab : a ≠ b) : H.alike (.string a) (.string b) = false := by
  unfold alike
  rw [alikeFrom_of_not_table H _ (.inl rfl)]
  show (a == b) = false
  simpa using hab

end Heap

/-! ## Lost tags -/

namespace Data

/-- **A tag is lost exactly where the payload converts to nil**: any other payload is the value of
the one entry of a new table. What alternatives with different tags become, one after the other, is
therefore alike exactly if both tags are lost. -/
theorem tag_lost_iff {H : Heap} (h : H.WellFormed) :
    (∀ (tag : String) (p : Data) (w : Value) (H₁ : Heap), p.toValue H = .ok (w, H₁) →
      ∃ H₂, (tagged tag p).toValue H = .ok (.table H₁.size, H₂) ∧
        (H₂.table H₁.size).entries = tagEntries tag w ∧
        ∀ t : Nat, t < H₁.size → H₂.table t = H₁.table t) ∧
      ∀ (d d' : Data) (a b : String), d.tag? = some a → d'.tag? = some b → a ≠ b →
        H.size + (d.room + d'.room) + 1 < 2 ^ 63 →
        ∀ (v v' : Value) (H₁ H₂ : Heap), d.toValue H = .ok (v, H₁) → d'.toValue H₁ = .ok (v', H₂) →
          (H₂.alike v v' = true ↔ d.LosesTag ∧ d'.LosesTag) := by
  constructor
  · intro tag p w H₁ hp
    obtain ⟨H₂, hv, hentries, -, hkept⟩ := toValue_tagged tag hp
    exact ⟨H₂, hv, hentries, hkept⟩
  intro d d' a b ha hb hab hroom v v' H₁ H₂ hd hd'
  have hsound := sound_toValue h (by omega) hd
  have hle := hsound.le_size
  dsimp only at hle
  have hsound' := sound_toValue hsound.wellFormed (by dsimp only; omega) hd'
  rcases toValue_eq_ok_of_tag ha hd with ⟨rfl, hlost⟩ | ⟨t, w, rfl, ht, hlost⟩ <;>
    rcases toValue_eq_ok_of_tag hb hd' with ⟨rfl, hlost'⟩ | ⟨u, w', rfl, hu, hlost'⟩
  · rw [Heap.alike_string H₂ hab]
    exact ⟨fun h => (Bool.false_ne_true h).elim, fun h => (hlost h.1).elim⟩
  · rw [(Heap.alike_string_table H₂ a u).1]
    exact ⟨fun h => (Bool.false_ne_true h).elim, fun h => (hlost h.1).elim⟩
  · rw [(Heap.alike_string_table H₂ b t).2]
    exact ⟨fun h => (Bool.false_ne_true h).elim, fun h => (hlost' h.2).elim⟩
  · have hin : t < H₁.size := (hsound.hand _ (List.mem_singleton_self _)).2 t rfl
    have hnew : H₁.size ≤ u := (hsound'.hand _ (List.mem_singleton_self _)).1.2 u rfl
    have hkept := hsound'.kept t hin
    dsimp only at hkept
    rw [hlost, hlost']
    refine Heap.alike_tagEntries hab (Nat.ne_of_lt (Nat.lt_of_lt_of_le hin hnew)) ?_
      (by rw [hkept, ht]) hu
    exact Nat.lt_of_lt_of_le (Nat.zero_lt_of_lt hin) hsound'.size_le

/-- A tag with a payload that is there, after one without. -/
theorem tag_lost_iff_present :
    ∃ v v' H₁ H₂, (tagged "A" .absent).toValue .empty = .ok (v, H₁) ∧
      (tagged "B" (.present (.boolean true))).toValue H₁ = .ok (v', H₂) ∧
      H₂.alike v v' = false := by
  have hiff := (tag_lost_iff Heap.wellFormed_empty).2 (tagged "A" .absent)
    (tagged "B" (.present (.boolean true))) "A" "B" rfl rfl (by decide) (by decide)
  refine ⟨_, _, _, _, rfl, rfl, Bool.eq_false_iff.2 fun halike => ?_⟩
  obtain ⟨tag, p, H, H', hd, hnil⟩ := ((hiff _ _ _ _ rfl rfl).1 halike).2
  cases hd
  cases hnil

/-- **Different alternatives whose payloads are nil become alike**: two tables without entries. -/
theorem alike_of_lost_tags :
    ∃ H₁ H₂, (tagged "A" .absent).toValue .empty = .ok (.table 0, H₁) ∧
      (tagged "B" .absent).toValue H₁ = .ok (.table 1, H₂) ∧
      (H₂.table 0).entries = [] ∧ (H₂.table 1).entries = [] ∧
      H₂.alike (.table 0) (.table 1) = true :=
  ⟨_, _, rfl, rfl, rfl, rfl, rfl⟩

end Data

end LuaGraph
