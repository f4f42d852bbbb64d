import LuaGraph.Proofs.Data.Forest
import LuaGraph.Proofs.Data.Refusal
import LuaGraph.Proofs.Graph.Preorder
import LuaGraph.Proofs.Graph.Saved
import LuaGraph.Proofs.Inline

/-!
# Data becomes trees

The value of a datum (`to_value`) holds no handles, and every table that is found in it stands in
one *place*: it is the value itself, or one key or one value of one table. A census therefore meets
no table twice. So no inline text of it is refused for being no tree, and the tree form of a saved
text has no slots.

Result: **`toValue_fails_or_builds_tree`**, together with where a conversion fails.
-/

namespace LuaGraph

/-! ## Places -/

/-- Where a value is found: at the root, or as the key or the value of an entry of a table, which is
told by its key. -/
inductive Place
  | root
  | key (t : TableId) (k : Value)
  | value (t : TableId) (k : Value)
deriving DecidableEq

/-- What is found at a place, starting from a value. -/
inductive Heap.Stands (H : Heap) (v : Value) : Place → Value → Prop
  | root : Stands H v .root v
  | key {p : Place} {t : TableId} {e : Entry} : Stands H v p (.table t) →
      e ∈ (H.table t).entries → Stands H v (.key t e.1) e.1
  | value {p : Place} {t : TableId} {e : Entry} : Stands H v p (.table t) →
      e ∈ (H.table t).entries → Stands H v (.value t e.1) e.2

/-- The places in the tables from a number on, and what stands there. -/
def Heap.places (H : Heap) (n : Nat) : List (Place × Value) :=
  (List.range' n (H.size - n)).flatMap fun t =>
    (H.table t).entries.flatMap fun e => [(.key t e.1, e.1), (.value t e.1, e.2)]

namespace Heap

variable {H : Heap} {n : Nat} {p q : Place} {u : TableId}

theorem flatMap_places (H : Heap) (n : Nat) :
    ((H.places n).flatMap fun x => x.2.table?.toList) = H.placed n := by
  unfold places placed Listing.tablesOf
  rw [List.flatMap_assoc]
  refine List.flatMap_congr fun t _ => ?_
  rw [List.flatMap_assoc]
  refine List.flatMap_congr fun e _ => ?_
  rw [List.filterMap_eq_flatMap_toList]
  rfl

/-- The key and the value of an entry have their places. -/
theorem mem_places {t : TableId} {e : Entry} (ht : n ≤ t) (hlt : t < H.size)
    (he : e ∈ (H.table t).entries) :
    (.key t e.1, e.1) ∈ H.places n ∧ (.value t e.1, e.2) ∈ H.places n := by
  have ht := mem_range'_size.2 ⟨ht, hlt⟩
  exact ⟨List.mem_flatMap.2 ⟨t, ht, List.mem_flatMap.2 ⟨e, he, List.mem_cons_self ..⟩⟩,
    List.mem_flatMap.2 ⟨t, ht, List.mem_flatMap.2 ⟨e, he, by simp⟩⟩⟩

/-- A table that is placed once has one place. -/
theorem place_unique (hcount : (H.placed n).count u ≤ 1) (hp : (p, .table u) ∈ H.places n)
    (hq : (q, .table u) ∈ H.places n) : p = q := by
  refine Decidable.byContradiction fun hne => ?_
  have htwice := Census.one_lt_count_flatMap (f := fun x : Place × Value => x.2.table?.toList)
    (y := u) hp hq (fun heq => hne (congrArg Prod.fst heq)) (List.mem_singleton_self u)
    (List.mem_singleton_self u)
  rw [flatMap_places] at htwice
  omega

end Heap

/-! ## What was built is a tree -/

namespace Stage.Sound

variable {H₀ H : Heap} {m : Nat} {v : Value} (h : Sound H₀ m ⟨H, [v]⟩)
include h

/-- What is found is the value at hand, or stands in a place of a new table. -/
theorem root_or_mem_places {p : Place} {w : Value} (hp : H.Stands v p w) :
    (p = .root ∧ w = v) ∨ ((p, w) ∈ H.places H₀.size ∧ w.IsNew H₀.size ∧ w.InHeap H) := by
  have inside {t : TableId} {e : Entry} (ht : H₀.size ≤ t ∧ t < H.size)
      (he : e ∈ (H.table t).entries) :
      ((.key t e.1, e.1) ∈ H.places H₀.size ∧ e.1.IsNew H₀.size ∧ e.1.InHeap H) ∧
        ((.value t e.1, e.2) ∈ H.places H₀.size ∧ e.2.IsNew H₀.size ∧ e.2.InHeap H) := by
    have hmem := Heap.mem_places ht.1 ht.2 he
    have hnew := h.entries t ht.1 e he
    have hin := h.wellFormed.closed t e he
    exact ⟨⟨hmem.1, hnew.1, hin.1⟩, hmem.2, hnew.2, hin.2⟩
  have table {p : Place} {t : TableId} (ih : (p = .root ∧ Value.table t = v) ∨
      ((p, Value.table t) ∈ H.places H₀.size ∧ (Value.table t).IsNew H₀.size ∧
        (Value.table t).InHeap H)) : H₀.size ≤ t ∧ t < H.size := by
    rcases ih with ⟨-, rfl⟩ | ⟨-, hnew, hin⟩
    · have hhand := h.hand (.table t) (List.mem_singleton_self _)
      exact ⟨hhand.1.2 t rfl, hhand.2 t rfl⟩
    · exact ⟨hnew.2 t rfl, hin t rfl⟩
  induction hp with
  | root => exact .inl ⟨rfl, rfl⟩
  | key _ he ih => exact .inr (inside (table ih) he).1
  | value _ he ih => exact .inr (inside (table ih) he).2

/-- No handle is found. -/
theorem isHandle_eq_false {p : Place} {w : Value} (hp : H.Stands v p w) : w.isHandle = false := by
  rcases h.root_or_mem_places hp with ⟨-, rfl⟩ | ⟨-, hnew, -⟩
  · exact (h.hand w (List.mem_singleton_self _)).1.1
  · exact hnew.1

/-- **Every table stands in one place.** -/
theorem stands_unique {p q : Place} {u : TableId} (hp : H.Stands v p (.table u))
    (hq : H.Stands v q (.table u)) : p = q := by
  have honce := h.once u
  dsimp only at honce
  have nowhere {p : Place} (hv : Value.table u = v) (hp : (p, .table u) ∈ H.places H₀.size) :
      False := by
    have hplaced : u ∈ H.placed H₀.size := by
      rw [← Heap.flatMap_places]
      exact List.mem_flatMap.2 ⟨_, hp, List.mem_singleton_self u⟩
    have hpos := List.count_pos_iff.2 hplaced
    rw [← hv, show [Value.table u].filterMap Value.table? = [u] from rfl,
      List.count_singleton_self] at honce
    omega
  rcases h.root_or_mem_places hp with ⟨rfl, hroot⟩ | ⟨hmem, -⟩ <;>
    rcases h.root_or_mem_places hq with ⟨rfl, hroot'⟩ | ⟨hmem', -⟩
  · rfl
  · exact (nowhere hroot hmem').elim
  · exact (nowhere hroot' hmem).elim
  · exact Heap.place_unique (Nat.le_trans (Nat.le_add_left ..) honce) hmem hmem'

/-! ## Censuses -/

/-- In a new table all entries are written. -/
theorem perm_children {t : TableId} (ht : H₀.size ≤ t) :
    (H.children t).Perm (Listing.tablesOf (H.table t).entries) := by
  have hall : H.writable t = (H.table t).entries := by
    refine List.filter_eq_self.2 fun e he => ?_
    rw [(h.entries t ht e he).1.1]
    rfl
  have hperm := Heap.perm_children h.wellFormed t
  rwa [Heap.below, hall] at hperm

/-- Different new tables hold no more than is placed in all of them. -/
theorem count_flatMap_children_le {ts : List TableId} (hts : ts.Nodup)
    (hnew : ∀ t ∈ ts, H₀.size ≤ t ∧ t < H.size) (u : TableId) :
    (ts.flatMap H.children).count u ≤ (H.placed H₀.size).count u := by
  have hperm : (ts.flatMap H.children).Perm
      (ts.flatMap fun t => Listing.tablesOf (H.table t).entries) :=
    List.Perm.flatMap_left _ fun t ht => h.perm_children (hnew t ht).1
  obtain ⟨us, hus, hsub⟩ :=
    List.subperm_of_subset hts fun t ht => Heap.mem_range'_size.2 (hnew t ht)
  rw [hperm.count_eq, ← (hus.flatMap_right _).count_eq]
  exact (hsub.flatMap _).count_le u

/-- What is reached from new tables are new tables. -/
theorem isNew_of_reach {roots : List TableId} {t : TableId}
    (hroots : ∀ t ∈ roots, H₀.size ≤ t ∧ t < H.size) (ht : Census.Reach H.children roots t) :
    H₀.size ≤ t ∧ t < H.size := by
  induction ht with
  | root ht => exact hroots _ ht
  | @child t u _ hu ih =>
    have hu := (h.perm_children ih.1).mem_iff.1 hu
    exact h.lt_of_mem_placed (List.mem_flatMap.2 ⟨u, Heap.mem_range'_size.2 ih, hu⟩)

/-- The tables that a census finds from new tables are new. -/
theorem isNew_of_mem_all {vs : List Value} (hvs : ∀ w ∈ vs, w.IsNew H₀.size ∧ w.InHeap H)
    {t : TableId} (ht : t ∈ (Census.ofValues H vs).all) : H₀.size ≤ t ∧ t < H.size := by
  refine h.isNew_of_reach (fun t ht => ?_) ((Census.mem_all_iff h.wellFormed fun w hw =>
    (hvs w hw).2).1 ht)
  obtain ⟨w, hw, htable⟩ := List.mem_filterMap.1 ht
  have hwt : w = .table t := by cases w <;> simp_all [Value.table?]
  exact ⟨(hvs w hw).1.2 t hwt, (hvs w hw).2 t hwt⟩

/-- **A census of the value meets no table twice.** -/
theorem count_le_one {vs : List Value} (hvs : ∀ w ∈ vs, w.IsNew H₀.size ∧ w.InHeap H)
    (htables : vs.filterMap Value.table? = [v].filterMap Value.table?) (u : TableId) :
    (Census.ofValues H vs).count u ≤ 1 := by
  have hwf : H.WellFormed := h.wellFormed
  have hin := fun w hw => (hvs w hw).2
  have hsound := Census.sound_ofValues hwf hin
  have honce := h.once u
  have hle := h.count_flatMap_children_le hsound.nodup (fun t ht => h.isNew_of_mem_all hvs ht) u
  rw [Census.count_eq hwf hin, htables]
  dsimp only at honce
  omega

/-- **A census of what a table at hand holds meets no table twice**, and not the table. -/
theorem count_entries_le_one {t : TableId} (hv : v = .table t) {vs : List Value}
    (hvs : ∀ w ∈ vs, w.IsNew H₀.size ∧ w.InHeap H)
    (htables : (vs.filterMap Value.table?).Perm (H.children t)) (u : TableId) :
    (Census.ofValues H vs).count u ≤ 1 := by
  have hwf : H.WellFormed := h.wellFormed
  have hin := fun w hw => (hvs w hw).2
  have hsound := Census.sound_ofValues hwf hin
  have honce := h.once u
  have htop := h.hand v (List.mem_singleton_self _)
  have hnew := fun t => h.isNew_of_mem_all hvs (t := t)
  have hplaced {w : TableId} (hw : w ∈ (Census.ofValues H vs).all) : w ∈ H.placed H₀.size := by
    have hparent {x : TableId} (hx : H₀.size ≤ x ∧ x < H.size) (hw : w ∈ H.children x) :
        w ∈ H.placed H₀.size :=
      List.mem_flatMap.2 ⟨x, Heap.mem_range'_size.2 hx, (h.perm_children hx.1).mem_iff.1 hw⟩
    cases (Census.mem_all_iff hwf hin).1 hw with
    | root hw => exact hparent ⟨htop.1.2 t hv, htop.2 t hv⟩ (htables.mem_iff.1 hw)
    | child hx hw => exact hparent (hnew _ ((Census.mem_all_iff hwf hin).2 hx)) hw
  have hnot : t ∉ (Census.ofValues H vs).all := by
    intro ht
    have hpos := List.count_pos_iff.2 (hplaced ht)
    have honce := h.once t
    rw [hv] at honce
    dsimp only at honce
    rw [show [Value.table t].filterMap Value.table? = [t] from rfl,
      List.count_singleton_self] at honce
    omega
  have hle := h.count_flatMap_children_le (List.nodup_cons.2 ⟨hnot, hsound.nodup⟩)
    (List.forall_mem_cons.2 ⟨⟨htop.1.2 t hv, htop.2 t hv⟩, hnew⟩) u
  rw [List.flatMap_cons, List.count_append] at hle
  rw [Census.count_eq hwf hin, htables.count_eq]
  dsimp only at honce
  omega

/-- **The value is a tree.** -/
theorem isTree : H.IsTree v := by
  intro depth
  have hvs : ∀ w ∈ [v], w.IsNew H₀.size ∧ w.InHeap H := h.hand
  have hin := fun w hw => (hvs w hw).2
  rw [(Heap.perm_walk h.wellFormed depth v).nodup_iff]
  have hroots : v.table?.toList = [v].filterMap Value.table? := by
    rw [List.filterMap_eq_flatMap_toList, List.flatMap_singleton]
  unfold Sketch.metIn writtenIn
  rw [hroots]
  have hall := fun t => (Census.mem_all_iff (t := t) h.wellFormed hin)
  have hmem : ∀ t ∈ [v].filterMap Value.table?, t ∈ (Census.ofValues H [v]).all :=
    fun t ht => (hall t).2 (.root ht)
  refine (nodup_written hmem (fun t ht u hu => (hall u).2 (.child ((hall t).1 ht) hu))
    (fun u _ => ?_) depth).1
  have hone := h.count_le_one hvs rfl u
  rw [Census.count_eq h.wellFormed hin] at hone
  have hunslotted (ts : List TableId) :
      unslotted (fun t => ((none : Option Nat)).isSome) ts = ts := by
    simp [unslotted]
  rw [hunslotted]
  exact hone

end Stage.Sound

/-! ## Saved texts -/

/-- The tree form of some entries to be written, unless a sort panics. -/
def Save.treeOf? (H : Heap) (o : Options) (es : List Entry) : Option Document := do
  let c ← censusOf? H es
  Document.ofBindings? H o .tree c es

/-- There are as many slots as tables that get one. -/
theorem Document.slots_of_eq_some {H : Heap} {o : Options} {form : Form} {c : Census}
    {es : List Entry} {d : Document} (hd : ofBindings? H o form c es = some d) :
    d.slots = (slotted form c).length := by
  obtain ⟨fills, -, hd⟩ := Option.bind_eq_some_iff.1 hd
  obtain ⟨bindings, -, hd⟩ := Option.bind_eq_some_iff.1 hd
  rw [← Option.some.inj hd]

/-- The tree form has no slots where no table is met twice. -/
theorem Save.slots_treeOf? {H : Heap} {o : Options} {es : List Entry} {d : Document}
    (hwf : H.WellFormed) (hes : ∀ v ∈ es.flatMap fun e => [e.1, e.2], v.InHeap H)
    (h : ∀ t, (Save.censusOf H es).count t ≤ 1) (hd : treeOf? H o es = some d) : d.slots = 0 := by
  obtain ⟨c, hc, hd⟩ := Option.bind_eq_some_iff.1 hd
  obtain ⟨rfl, -⟩ := (Census.ofValues?_eq_some_iff hwf hes).1 hc
  have hnone : (Save.censusOf H es).shared = [] :=
    List.filter_eq_nil_iff.2 fun t _ => by
      have hone := h t
      simpa using hone
  exact (Document.slots_of_eq_some hd).trans (congrArg List.length hnone)

/-! ## Conversions -/

namespace Data

variable {H H' : Heap} {d : Data} {v : Value}

/-- What is converted is at hand in the end, and nothing else. -/
theorem sound_toValue (h : H.WellFormed) (hroom : H.size + d.room + 1 < 2 ^ 63)
    (hv : d.toValue H = .ok (v, H')) : Stage.Sound H d.room ⟨H', [v]⟩ := by
  have hsound := (Stage.Sound.start h).steps (Stage.steps_toValue d hv [])
  rw [Nat.zero_add] at hsound
  exact hsound hroom

/-- **A conversion fails exactly where some key in a map is bad, and for such a key. Otherwise its
value holds no handles, and every table in it stands in one place**, so that it is a tree inline and
needs no slots when it is saved: neither as the bindings nor under a name. For this there has to be
room, since places in a sequence are integers of 64 bits. -/
theorem toValue_fails_or_builds_tree (h : H.WellFormed) (hd : d.Regular) :
    ((∃ e, d.toValue H = .error e) ↔ d.HasBadKey) ∧
      (∀ e, d.toValue H = .error e → ∃ f, e = .invalidKey f) ∧
      (H.size + d.room + 1 < 2 ^ 63 → ∀ v H', d.toValue H = .ok (v, H') →
        (∀ p w, H'.Stands v p w → w.isHandle = false) ∧
        (∀ p q t, H'.Stands v p (.table t) → H'.Stands v q (.table t) → p = q) ∧
        (∀ o, H'.inline o v ≠ some (.error .notATree)) ∧
        (∀ o t, v = .table t → ∀ es ∈ Save.entriesOf? H' t none, ∀ d ∈ Save.treeOf? H' o es,
          d.slots = 0) ∧
        ∀ o name, ∀ d ∈ Save.treeOf? H' o [(.string name, v)], d.slots = 0) := by
  refine ⟨⟨?_, fun hbad => error_of_hasBadKey hd hbad H⟩, ?_, fun hroom v H' hv => ?_⟩
  · rintro ⟨e, he⟩
    exact (refused_of_error d hd he).2
  · exact fun e he => (refused_of_error d hd he).1
  have hsound := sound_toValue h hroom hv
  have hwf : H'.WellFormed := hsound.wellFormed
  have htop := hsound.hand v (List.mem_singleton_self v)
  refine ⟨fun p w => hsound.isHandle_eq_false, fun p q t => hsound.stands_unique,
    fun o => Heap.inline_ne_notATree hwf hsound.isTree o, fun o t hvt es hes d hd => ?_,
    fun o name d hd => ?_⟩
  · obtain rfl : Save.entriesOf H' t none = es := by
      rw [Save.entriesOf, Option.mem_def.1 hes, Option.getD_some]
    have hperm : (Save.entriesOf H' t none).Perm (H'.writable t) := by
      have := perm_entriesOf H' t none
      rwa [show Save.missing H' t none = [] from rfl, List.append_nil] at this
    refine Save.slots_treeOf? hwf (Save.inHeap_entriesOf hwf)
      (hsound.count_entries_le_one hvt (fun w hw => ?_) ?_) hd
    · obtain ⟨e, he, hw⟩ := List.mem_flatMap.1 hw
      have hnew := hsound.entries t (htop.1.2 t hvt) e
        (List.mem_of_mem_filter (hperm.mem_iff.1 he))
      have hin := inHeap_of_mem_entriesOf hwf he
      rcases List.mem_cons.1 hw with rfl | hw
      · exact ⟨hnew.1, hin.1⟩
      · rw [List.mem_singleton.1 hw]
        exact ⟨hnew.2, hin.2⟩
    · rw [filterMap_values]
      exact (hperm.flatMap_right _).trans (Heap.perm_children hwf t).symm
  · have hin (w : Value) (hw : w ∈ [(Value.string name, v)].flatMap fun e => [e.1, e.2]) :
        w.IsNew H.size ∧ w.InHeap H' := by
      rcases List.mem_cons.1 hw with rfl | hw
      · exact ⟨Value.IsScalar.isNew ⟨rfl, rfl⟩ _, fun t ht => by cases ht⟩
      · rw [List.mem_singleton.1 hw]
        exact htop
    exact Save.slots_treeOf? hwf (fun w hw => (hin w hw).2) (hsound.count_le_one hin rfl) hd

/-- A map in a sequence, whose key is what is present. -/
def keyed (k : Data) : Data :=
  .sequence [.map [.key (.present k), .value (.tagged "V" (.bytes [7]))]]

theorem regular_keyed {k : Data} (hk : k.Regular) : (keyed k).Regular := by
  refine regular_iff.2 ⟨by simp [keyed], by simp [keyed], fun p hp => ?_⟩
  cases hp with
  | element hp =>
    rw [List.mem_singleton.1 hp]
    refine regular_iff.2 ⟨by simp, fun cs hcs => ?_, fun p hp => ?_⟩
    · cases hcs
      exact .entry .nil
    · cases hp with
      | key hp =>
        obtain rfl : p = .present k := by simpa using hp
        refine regular_iff.2 ⟨by simp, by simp, fun p hp => ?_⟩
        cases hp
        exact hk
      | value hp =>
        obtain rfl : p = .tagged "V" (.bytes [7]) := by simpa using hp
        refine regular_iff.2 ⟨by simp, by simp, fun p hp => ?_⟩
        cases hp
        exact regular_iff.2 ⟨by simp, by simp, fun p hp => nomatch hp⟩

/-- Nil is refused as a key, and an empty table is a key. -/
theorem toValue_keyed :
    (∃ f, (keyed .absent).toValue .empty = .error (.invalidKey f)) ∧
      ∃ v H', (keyed (.bytes [])).toValue .empty = .ok (v, H') ∧
        (∀ p q t, H'.Stands v p (.table t) → H'.Stands v q (.table t) → p = q) ∧
        ∀ o, H'.inline o v ≠ some (.error .notATree) := by
  have hleaf {d : Data} (hd : d = .absent ∨ d = .bytes []) : d.Regular := by
    rcases hd with rfl | rfl <;>
      exact regular_iff.2 ⟨by simp, by simp, fun p hp => nomatch hp⟩
  have hempty := Heap.wellFormed_empty
  obtain ⟨hiff, hkey, -⟩ := toValue_fails_or_builds_tree hempty (regular_keyed (hleaf (.inl rfl)))
  obtain ⟨-, -, htree⟩ := toValue_fails_or_builds_tree hempty (regular_keyed (hleaf (.inr rfl)))
  constructor
  · obtain ⟨e, he⟩ := hiff.2 ⟨_, .present .absent, .single (.element (List.mem_singleton_self _)),
      List.mem_cons_self .., .empty, .empty, .nil, rfl, .inl rfl⟩
    obtain ⟨f, rfl⟩ := hkey e he
    exact ⟨f, he⟩
  · cases hv : (keyed (.bytes [])).toValue .empty with
    | error e => cases hv
    | ok r =>
      obtain ⟨v, H'⟩ := r
      obtain ⟨-, hplaces, hinline, -⟩ := htree (by decide) v H' hv
      exact ⟨v, H', rfl, hplaces, hinline⟩

end Data

end LuaGraph
