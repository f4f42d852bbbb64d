import LuaGraph.Proofs.Data.Building

/-!
# Data that is refused

A conversion fails where a key of a map has no place in a table (`normalize_key`, `serialize_key`),
at whatever depth it stands, and nowhere else. Conventions:

* A *part* of a datum is what it holds: an element, a field, a key, a value or a payload.
* A datum is *regular* if it has no integers of 128 bits, and if in its maps every key comes with
  its value.
* A *bad key* is one that converts to nil or to NaN, however it is wrapped.

Results: **`error_of_hasBadKey`** and, the other way round, **`refused_of_error`**.
-/

namespace LuaGraph

/-! ## Parts -/

/-- A datum is held by another one. -/
inductive Data.PartOf : Data → Data → Prop
  | present {d : Data} : PartOf d (.present d)
  | wrapped {d : Data} : PartOf d (.wrapped d)
  | element {d : Data} {ds : List Data} : d ∈ ds → PartOf d (.sequence ds)
  | field {name : String} {d : Data} {fs : List DataField} : .mk name d ∈ fs → PartOf d (.record fs)
  | key {d : Data} {cs : List MapCall} : .key d ∈ cs → PartOf d (.map cs)
  | value {d : Data} {cs : List MapCall} : .value d ∈ cs → PartOf d (.map cs)
  | payload {tag : String} {d : Data} : PartOf d (.tagged tag d)

/-- A datum is found in another one, at any depth. -/
def Data.Within : Data → Data → Prop := Relation.ReflTransGen Data.PartOf

/-- Every key comes with its value. -/
inductive Paired : List MapCall → Prop
  | nil : Paired []
  | entry {k d : Data} {cs : List MapCall} : Paired cs → Paired (.key k :: .value d :: cs)

/-- No integer of 128 bits is found in the datum, and every key in it comes with its value. -/
structure Data.Regular (d : Data) : Prop where
  narrow : ∀ w, ¬ (Data.wide w).Within d
  paired : ∀ cs, (Data.map cs).Within d → Paired cs

/-- A key that converts to nil or to NaN. -/
def Data.IsBadKey (k : Data) : Prop :=
  ∃ H H' v, k.toValue H = .ok (v, H') ∧ (v = .nil ∨ ∃ n, v = .number n ∧ n.isNaN = true)

/-- Some map in the datum has a bad key. -/
def Data.HasBadKey (d : Data) : Prop :=
  ∃ cs k, (Data.map cs).Within d ∧ .key k ∈ cs ∧ k.IsBadKey

namespace Data

variable {d p : Data}

/-- Whether a datum is regular shows in itself and in its parts. -/
theorem regular_iff : d.Regular ↔
    (∀ w, d ≠ .wide w) ∧ (∀ cs, d = .map cs → Paired cs) ∧ ∀ p : Data, p.PartOf d → p.Regular := by
  constructor
  · intro h
    refine ⟨?_, ?_, fun p hp => ⟨fun w hw => h.narrow w (hw.tail hp),
      fun cs hcs => h.paired cs (hcs.tail hp)⟩⟩
    · rintro w rfl
      exact h.narrow w .refl
    · rintro cs rfl
      exact h.paired cs .refl
  · rintro ⟨hwide, hmap, hparts⟩
    refine ⟨fun w hw => ?_, fun cs hcs => ?_⟩
    · rcases hw.cases_tail with rfl | ⟨p, hw, hp⟩
      · exact hwide w rfl
      · exact (hparts p hp).narrow w hw
    · rcases hcs.cases_tail with rfl | ⟨p, hcs, hp⟩
      · exact hmap cs rfl
      · exact (hparts p hp).paired cs hcs

theorem Regular.part (h : d.Regular) (hp : p.PartOf d) : p.Regular := (regular_iff.1 h).2.2 p hp

theorem HasBadKey.of_part (h : p.HasBadKey) (hp : p.PartOf d) : d.HasBadKey := by
  obtain ⟨cs, k, hcs, hk⟩ := h
  exact ⟨cs, k, hcs.tail hp, hk⟩

end Data

/-! ## Bad keys -/

/-- A value has no place as a key exactly if it is nil or NaN. -/
theorem Value.toKey_eq_error_iff {v : Value} :
    (∃ f, v.toKey = .error f) ↔ v = .nil ∨ ∃ n, v = .number n ∧ n.isNaN = true := by
  cases v with
  | number n => cases hn : n.isNaN <;> simp [toKey, hn]
  | _ => simp [toKey]

open Build

namespace Data

/-- What converts to no table does so in any heap. -/
theorem toValue_eq_of_isTable_eq_false (d : Data) {H H' : Heap} {v : Value}
    (h : d.toValue H = .ok (v, H')) (hv : v.isTable = false) (H₁ : Heap) :
    d.toValue H₁ = .ok (v, H₁) := by
  have scalar {w : Value} (h : (pure w : Build Value) H = .ok (v, H')) :
      (pure w : Build Value) H₁ = .ok (v, H₁) := by
    cases h
    rfl
  have table {α : Type} {p : Build α} {f : α → TableId} {H : Heap}
      (h : (p >>= fun a => pure (.table (f a))) H = .ok (v, H')) : False := by
    obtain ⟨a, H₂, -, hend⟩ := bind_eq_ok.1 h
    cases hend
    cases hv
  cases d with
  | present d => exact toValue_eq_of_isTable_eq_false d h hv H₁
  | wrapped d => exact toValue_eq_of_isTable_eq_false d h hv H₁
  | wide w => cases h
  | bytes bs => exact (table h).elim
  | sequence elements =>
    obtain ⟨t, H₂, -, hrest⟩ := bind_eq_ok.1 h
    exact (table hrest).elim
  | record fields =>
    obtain ⟨t, H₂, -, hrest⟩ := bind_eq_ok.1 h
    exact (table hrest).elim
  | map calls =>
    obtain ⟨t, H₂, -, hrest⟩ := bind_eq_ok.1 h
    exact (table hrest).elim
  | tagged tag payload =>
    obtain ⟨w, H₂, -, hrest⟩ := bind_eq_ok.1 h
    obtain ⟨t, H₃, -, hrest⟩ := bind_eq_ok.1 hrest
    exact (table hrest).elim
  | _ => exact scalar h

/-- A bad key is nil or NaN in any heap. -/
theorem IsBadKey.toValue {k : Data} (h : k.IsBadKey) (H : Heap) :
    ∃ v, k.toValue H = .ok (v, H) ∧ ∃ f, v.toKey = .error f := by
  obtain ⟨H₁, H₂, v, hk, hv⟩ := h
  refine ⟨v, toValue_eq_of_isTable_eq_false k hk ?_ H, Value.toKey_eq_error_iff.2 hv⟩
  rcases hv with rfl | ⟨n, rfl, -⟩ <;> rfl

theorem isBadKey_of_toKey {k : Data} {H H' : Heap} {v : Value} {f : KeyFault}
    (h : k.toValue H = .ok (v, H')) (hv : v.toKey = .error f) : k.IsBadKey :=
  ⟨H, H', v, h, Value.toKey_eq_error_iff.1 ⟨f, hv⟩⟩

end Data

/-! ## A bad key is refused -/

/-- An assignment fails for its key only. -/
theorem Build.set_eq_error {t : TableId} {k v : Value} {H : Heap} {e : Error} :
    set t k v H = .error e ↔ ∃ f, e = .invalidKey f ∧ k.toKey = .error f := by
  unfold set Heap.set
  cases k.toKey with
  | error f => simp [Except.map, eq_comm]
  | ok k => simp [Except.map]

section

variable {t : TableId} {place : Nat} {H : Heap} {r : Unit × Heap} {d : Data}

theorem toValue_of_storeElements {ds : List Data} (h : storeElements t place ds H = .ok r)
    (hd : d ∈ ds) : ∃ H' r', d.toValue H' = .ok r' := by
  induction ds generalizing place H with
  | nil => exact absurd hd List.not_mem_nil
  | cons d' ds ih =>
    obtain ⟨v, H₁, hv, hrest⟩ := bind_eq_ok.1 h
    obtain ⟨_, H₂, -, hrest⟩ := bind_eq_ok.1 hrest
    rcases List.mem_cons.1 hd with rfl | hd
    · exact ⟨H, _, hv⟩
    · exact ih hrest hd

theorem toValue_of_storeFields {fs : List DataField} {name : String}
    (h : storeFields t fs H = .ok r) (hd : .mk name d ∈ fs) : ∃ H' r', d.toValue H' = .ok r' := by
  induction fs generalizing H with
  | nil => exact absurd hd List.not_mem_nil
  | cons f fs ih =>
    obtain ⟨name', d'⟩ := f
    obtain ⟨v, H₁, hv, hrest⟩ := bind_eq_ok.1 h
    obtain ⟨_, H₂, -, hrest⟩ := bind_eq_ok.1 hrest
    rcases List.mem_cons.1 hd with heq | hd
    · cases heq
      exact ⟨H, _, hv⟩
    · exact ih hrest hd

/-- In a map that is converted, keys and values are, and no key is bad. -/
theorem toValue_of_storeCalls {cs : List MapCall} (hcs : Paired cs)
    (h : storeCalls t none cs H = .ok r) :
    (∀ d, .key d ∈ cs → (∃ H' r', d.toValue H' = .ok r') ∧ ¬ d.IsBadKey) ∧
      ∀ d, .value d ∈ cs → ∃ H' r', d.toValue H' = .ok r' := by
  induction hcs generalizing H with
  | nil => exact ⟨fun _ hd => absurd hd List.not_mem_nil, fun _ hd => absurd hd List.not_mem_nil⟩
  | @entry k d cs _ ih =>
    obtain ⟨w, H₁, hk, hrest⟩ := bind_eq_ok.1 h
    dsimp only at hrest
    split at hrest
    · cases hrest
    obtain ⟨v, H₃, hv, hrest⟩ := bind_eq_ok.1 hrest
    obtain ⟨_, H₄, hset, hrest⟩ := bind_eq_ok.1 hrest
    obtain ⟨hkeys, hvalues⟩ := ih hrest
    have hgood : ¬ k.IsBadKey := by
      intro hbad
      obtain ⟨w', hk', f, hf⟩ := hbad.toValue H
      cases hk.symm.trans hk'
      have hfail := Build.set_eq_error (t := t) (v := v) (H := H₃).2 ⟨f, rfl, hf⟩
      cases hset.symm.trans hfail
    constructor
    · intro d' hd
      rcases List.mem_cons.1 hd with heq | hd
      · cases heq
        exact ⟨⟨H, _, hk⟩, hgood⟩
      · exact hkeys d' (by simpa using hd)
    · intro d' hd
      rcases List.mem_cons.1 ((List.mem_cons.1 hd).resolve_left (by simp)) with heq | hd
      · cases heq
        exact ⟨H₁, _, hv⟩
      · exact hvalues d' hd

end

namespace Data

/-- The parts of what is converted are converted. -/
theorem toValue_of_partOf {p d : Data} (hp : p.PartOf d) (hd : d.Regular) {H : Heap}
    {r : Value × Heap} (h : d.toValue H = .ok r) : ∃ H' r', p.toValue H' = .ok r' := by
  cases hp with
  | present => exact ⟨H, r, h⟩
  | wrapped => exact ⟨H, r, h⟩
  | element hp =>
    obtain ⟨-, hstore⟩ := filled_eq_ok.1 h
    exact toValue_of_storeElements hstore hp
  | field hp =>
    obtain ⟨-, hstore⟩ := filled_eq_ok.1 h
    exact toValue_of_storeFields hstore hp
  | key hp =>
    obtain ⟨-, hstore⟩ := filled_eq_ok.1 h
    exact ((toValue_of_storeCalls (hd.paired _ .refl) hstore).1 p hp).1
  | value hp =>
    obtain ⟨-, hstore⟩ := filled_eq_ok.1 h
    exact (toValue_of_storeCalls (hd.paired _ .refl) hstore).2 p hp
  | payload =>
    obtain ⟨v, H₁, hv, -⟩ := bind_eq_ok.1 h
    exact ⟨H, _, hv⟩

/-- What is found in a datum that is converted is converted. -/
theorem toValue_of_within {p d : Data} (hp : p.Within d) (hd : d.Regular) {H : Heap}
    {r : Value × Heap} (h : d.toValue H = .ok r) : ∃ H' r', p.toValue H' = .ok r' := by
  induction hp generalizing H r with
  | refl => exact ⟨H, r, h⟩
  | tail _ hpart ih =>
    obtain ⟨H', r', h'⟩ := toValue_of_partOf hpart hd h
    exact ih (hd.part hpart) h'

/-- **A datum with a bad key is refused**, wherever in it the key is. -/
theorem error_of_hasBadKey {d : Data} (hd : d.Regular) (h : d.HasBadKey) (H : Heap) :
    ∃ e, d.toValue H = .error e := by
  obtain ⟨cs, k, hwithin, hk, hbad⟩ := h
  cases hr : d.toValue H with
  | error e => exact ⟨e, rfl⟩
  | ok r =>
    obtain ⟨H', r', hmap⟩ := toValue_of_within hwithin hd hr
    obtain ⟨-, hstore⟩ := filled_eq_ok.1 hmap
    exact absurd hbad ((toValue_of_storeCalls (hd.paired cs hwithin) hstore).1 k hk).2

end Data

/-! ## Nothing else is refused -/

/-- Refused for a key, of a datum that has a bad one. -/
def Refused (e : Error) (d : Data) : Prop := (∃ f, e = .invalidKey f) ∧ d.HasBadKey

theorem Refused.of_part {e : Error} {p d : Data} (h : Refused e p) (hp : p.PartOf d) :
    Refused e d := ⟨h.1, h.2.of_part hp⟩

/-- A key is assigned to without a fault. -/
theorem Build.set_ne_error {t : TableId} {k v : Value} {H : Heap} {e : Error}
    (hk : k.toKey = .ok k) : set t k v H ≠ .error e := by
  intro h
  obtain ⟨f, -, hf⟩ := set_eq_error.1 h
  cases hk.symm.trans hf

mutual

/-- **A conversion fails for a bad key only.** -/
theorem Data.refused_of_error (d : Data) (hd : d.Regular) {H : Heap} {e : Error}
    (h : d.toValue H = .error e) : Refused e d := by
  cases d with
  | present d => exact (Data.refused_of_error d (hd.part .present) h).of_part .present
  | wrapped d => exact (Data.refused_of_error d (hd.part .wrapped) h).of_part .wrapped
  | wide w => exact absurd .refl (hd.narrow w)
  | sequence elements =>
    exact refused_of_storeElements elements hd (List.Subset.refl _)
      (filled_eq_error.1 h)
  | record fields =>
    exact refused_of_storeFields fields hd (List.Subset.refl _)
      (filled_eq_error.1 h)
  | map calls =>
    exact refused_of_storeCalls calls (hd.paired calls .refl) hd (List.Subset.refl _)
      (filled_eq_error.1 h)
  | tagged tag payload =>
    rcases bind_eq_error.1 h with hpayload | ⟨v, H₁, -, hrest⟩
    · exact (Data.refused_of_error payload (hd.part .payload) hpayload).of_part .payload
    exact absurd (filled_eq_error.1 hrest) (Build.set_ne_error rfl)
  | _ => cases h

/-- The last elements of a sequence are refused for what is in them. -/
theorem refused_of_storeElements (ds : List Data) {elements : List Data}
    (hd : (Data.sequence elements).Regular) (hsub : ds ⊆ elements) {t : TableId} {place : Nat}
    {H : Heap} {e : Error} (h : storeElements t place ds H = .error e) :
    Refused e (.sequence elements) := by
  cases ds with
  | nil => cases h
  | cons d ds =>
    obtain ⟨hmem, hsub⟩ := List.cons_subset.1 hsub
    rcases bind_eq_error.1 h with herror | ⟨v, H₁, -, hrest⟩
    · exact (Data.refused_of_error d (hd.part (.element hmem)) herror).of_part (.element hmem)
    rcases bind_eq_error.1 hrest with hset | ⟨_, H₂, -, hrest⟩
    · exact absurd hset (Build.set_ne_error rfl)
    · exact refused_of_storeElements ds hd hsub hrest

/-- The last fields of a record are refused for what is in them. -/
theorem refused_of_storeFields (fs : List DataField) {fields : List DataField}
    (hd : (Data.record fields).Regular) (hsub : fs ⊆ fields) {t : TableId} {H : Heap} {e : Error}
    (h : storeFields t fs H = .error e) : Refused e (.record fields) := by
  match fs, h with
  | .mk name d :: fs, h =>
    obtain ⟨hmem, hsub⟩ := List.cons_subset.1 hsub
    rcases bind_eq_error.1 h with herror | ⟨v, H₁, -, hrest⟩
    · exact (Data.refused_of_error d (hd.part (.field hmem)) herror).of_part (.field hmem)
    rcases bind_eq_error.1 hrest with hset | ⟨_, H₂, -, hrest⟩
    · exact absurd hset (Build.set_ne_error rfl)
    · exact refused_of_storeFields fs hd hsub hrest

/-- The last entries of a map are refused for a key of theirs, or for what is in them. -/
theorem refused_of_storeCalls (cs : List MapCall) (hcs : Paired cs) {calls : List MapCall}
    (hd : (Data.map calls).Regular) (hsub : cs ⊆ calls) {t : TableId} {H : Heap} {e : Error}
    (h : storeCalls t none cs H = .error e) : Refused e (.map calls) := by
  match cs, hcs, h with
  | .key k :: .value d :: cs, .entry hcs, h =>
    obtain ⟨hkey, hsub⟩ := List.cons_subset.1 hsub
    obtain ⟨hvalue, hsub⟩ := List.cons_subset.1 hsub
    have bad {f : KeyFault} (hbad : k.IsBadKey) : Refused (.invalidKey f) (.map calls) :=
      ⟨⟨f, rfl⟩, calls, k, .refl, hkey, hbad⟩
    rcases bind_eq_error.1 h with herror | ⟨w, H₁, hk, hrest⟩
    · exact (Data.refused_of_error k (hd.part (.key hkey)) herror).of_part (.key hkey)
    dsimp only at hrest
    split at hrest
    · -- nil is refused before its value comes
      rename_i hnil
      cases hrest
      exact bad (Data.isBadKey_of_toKey (f := .nil) hk (by rw [hnil, Value.toKey]))
    rcases bind_eq_error.1 hrest with herror | ⟨v, H₂, -, hrest⟩
    · exact (Data.refused_of_error d (hd.part (.value hvalue)) herror).of_part (.value hvalue)
    rcases bind_eq_error.1 hrest with hset | ⟨_, H₃, -, hrest⟩
    · obtain ⟨f, rfl, hf⟩ := Build.set_eq_error.1 hset
      exact bad (Data.isBadKey_of_toKey hk hf)
    · exact refused_of_storeCalls cs hcs hd hsub hrest

end

end LuaGraph
