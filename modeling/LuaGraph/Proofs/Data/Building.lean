import LuaGraph.Data
import LuaGraph.Proofs.Graph.Outline

/-!
# How data becomes tables

Whatever a datum is, its value (`to_value`) is built in few kinds of steps: a scalar is taken, a new
table is made from scalars, a value is stored in a table that is being built, a value is given up. A
`Stage` is what there is in between: the heap, and the values *at hand*, which are not stored
anywhere yet. What a step keeps is kept by every conversion that succeeds.

Result: **`steps_toValue`**: a conversion that succeeds is a run of such steps, after which its
result is at hand. They make no more tables and entries than there is `room` for.
-/

namespace LuaGraph

/-! ## Runs -/

namespace Build

variable {α β : Type} {p : Build α} {f : α → Build β} {H : Heap}

/-- A run of two parts is a run of the first and then of the second. -/
theorem bind_eq_ok {r : β × Heap} :
    (p >>= f) H = .ok r ↔ ∃ a H', p H = .ok (a, H') ∧ f a H' = .ok r := by
  show (p H >>= fun x => f x.1 x.2) = .ok r ↔ _
  cases p H with
  | error e => simp [bind, Except.bind]
  | ok x =>
    obtain ⟨a, H'⟩ := x
    simp [bind, Except.bind]

/-- A run of two parts fails where one of them does. -/
theorem bind_eq_error {e : Error} :
    (p >>= f) H = .error e ↔ p H = .error e ∨ ∃ a H', p H = .ok (a, H') ∧ f a H' = .error e := by
  show (p H >>= fun x => f x.1 x.2) = .error e ↔ _
  cases p H with
  | error e' => simp [bind, Except.bind]
  | ok x =>
    obtain ⟨a, H'⟩ := x
    simp [bind, Except.bind]

theorem set_eq_ok {t : TableId} {k v : Value} {r : Unit × Heap} :
    set t k v H = .ok r ↔ H.set t k v = .ok r.2 := by
  unfold set
  cases H.set t k v with
  | error f => simp
  | ok H' => simp [Prod.ext_iff]

variable {store : TableId → Build Unit}

/-- A new table is the result once something has been stored in it. -/
theorem filled_eq_ok {v : Value} {H' : Heap} :
    (do
      let t ← newTable .empty
      store t
      return .table t : Build Value) H = .ok (v, H') ↔
      v = .table H.size ∧ store H.size (H.add .empty).2 = .ok ((), H') := by
  constructor
  · intro h
    obtain ⟨t, H₁, hnew, hrest⟩ := bind_eq_ok.1 h
    obtain ⟨_, H₂, hstore, hend⟩ := bind_eq_ok.1 hrest
    cases hnew
    cases hend
    exact ⟨rfl, hstore⟩
  · rintro ⟨rfl, hstore⟩
    exact bind_eq_ok.2 ⟨_, _, rfl, bind_eq_ok.2 ⟨_, _, hstore, rfl⟩⟩

/-- A new table is refused only for what is to be stored in it. -/
theorem filled_eq_error {e : Error} :
    (do
      let t ← newTable .empty
      store t
      return .table t : Build Value) H = .error e ↔
      store H.size (H.add .empty).2 = .error e := by
  constructor
  · intro h
    rcases bind_eq_error.1 h with hnew | ⟨t, H₁, hnew, hrest⟩
    · cases hnew
    cases hnew
    rcases bind_eq_error.1 hrest with hstore | ⟨_, H₂, -, hend⟩
    · exact hstore
    · cases hend
  · intro hstore
    exact bind_eq_error.2 (.inr ⟨_, _, rfl, bind_eq_error.2 (.inl hstore)⟩)

end Build

/-! ## Room -/

mutual

/-- How many tables and entries are made for a datum at most. -/
def Data.room : Data → Nat
  | .present d => d.room
  | .wrapped d => d.room
  | .bytes bs => bs.length + 1
  | .sequence elements => roomForElements elements + 1
  | .record fields => roomForFields fields + 1
  | .map calls => roomForCalls calls + 1
  | .tagged _ payload => payload.room + 2
  | _ => 0

/-- How many tables and entries are made for the elements of a sequence at most. -/
def roomForElements : List Data → Nat
  | [] => 0
  | d :: ds => d.room + 1 + roomForElements ds

/-- How many tables and entries are made for the fields of a record at most. -/
def roomForFields : List DataField → Nat
  | [] => 0
  | .mk _ d :: fs => d.room + 1 + roomForFields fs

/-- How many tables and entries are made for the keys and values of a map at most. -/
def roomForCalls : List MapCall → Nat
  | [] => 0
  | .key d :: cs => d.room + roomForCalls cs
  | .value d :: cs => d.room + 1 + roomForCalls cs

end

/-! ## Steps -/

/-- The tables so far, and the values that are not stored in any of them yet. -/
structure Stage where
  heap : Heap
  hand : List Value

namespace Stage

/-- **A step of building**, with the number of tables and entries that it makes at most. -/
inductive Step : Nat → Stage → Stage → Prop
  | scalar {H : Heap} {vs : List Value} {v : Value} : v.IsScalar → Step 0 ⟨H, vs⟩ ⟨H, v :: vs⟩
  | table {H : Heap} {vs : List Value} (ws : List Value) : (∀ w ∈ ws, w.IsScalar) →
      Step (ws.length + 1) ⟨H, vs⟩ ⟨(H.add (.ofSequence ws)).2, .table H.size :: vs⟩
  | store {H H' : Heap} {vs : List Value} {t : TableId} {k v : Value} : H.set t k v = .ok H' →
      Step 1 ⟨H, v :: k :: .table t :: vs⟩ ⟨H', .table t :: vs⟩
  | forget {H : Heap} {vs : List Value} {v : Value} : Step 0 ⟨H, v :: vs⟩ ⟨H, vs⟩
  | sort {H : Heap} {vs ws : List Value} : vs.Perm ws → Step 0 ⟨H, vs⟩ ⟨H, ws⟩

/-- Some steps of building, one after the other. -/
inductive Steps : Nat → Stage → Stage → Prop
  | nil {S : Stage} : Steps 0 S S
  | cons {m n : Nat} {S S' S'' : Stage} : Step m S S' → Steps n S' S'' → Steps (m + n) S S''

namespace Steps

variable {m n : Nat} {S S' S'' : Stage}

theorem single (hstep : Step n S S') : Steps n S S' :=
  (Steps.cons hstep .nil : Steps (n + 0) S S')

theorem append (h : Steps m S S') (h' : Steps n S' S'') : Steps (m + n) S S'' := by
  induction h with
  | nil => rwa [Nat.zero_add]
  | cons hstep _ ih =>
    rw [Nat.add_assoc]
    exact .cons hstep (ih h')

theorem concat (h : Steps m S S') (hstep : Step n S' S'') : Steps (m + n) S S'' :=
  h.append (.single hstep)

/-- A step that makes nothing. -/
theorem free (h : Steps m S S') (hstep : Step 0 S' S'') : Steps m S S'' := h.concat hstep

variable {H : Heap} {vs : List Value} {t : TableId} {k v : Value} {H' : Heap}

/-- A value at hand is stored under a scalar. -/
theorem stored (h : Steps m S ⟨H, v :: .table t :: vs⟩) (hk : k.IsScalar)
    (hset : H.set t k v = .ok H') : Steps (m + 1) S ⟨H', .table t :: vs⟩ :=
  ((h.free (.scalar hk)).free (.sort (.swap v k _))).concat (.store hset)

/-- A key that waited is given up for another one. -/
theorem replaced {pending : Option Value} (h : Steps m S ⟨H, k :: (pending.toList ++ vs)⟩) :
    Steps m S ⟨H, (some k).toList ++ vs⟩ := by
  cases pending with
  | none => exact h
  | some p => exact (h.free (.sort (.swap p k _))).free .forget

/-- A key that waited is given up at the end. -/
theorem dropped {pending : Option Value} (h : Steps m S ⟨H, pending.toList ++ vs⟩) :
    Steps m S ⟨H, vs⟩ := by
  cases pending with
  | none => exact h
  | some p => exact h.free .forget

end Steps

/-! ## Conversions are runs of steps -/

open Build

mutual

/-- **A conversion that succeeds is a run of steps**, after which its result is at hand. -/
theorem steps_toValue (d : Data) {H H' : Heap} {v : Value} (h : d.toValue H = .ok (v, H'))
    (vs : List Value) : Steps d.room ⟨H, vs⟩ ⟨H', v :: vs⟩ := by
  have scalar {v w : Value} {H H' : Heap} (hv : v.IsScalar)
      (h : (pure v : Build Value) H = .ok (w, H')) : Steps 0 ⟨H, vs⟩ ⟨H', w :: vs⟩ := by
    cases h
    exact .single (.scalar hv)
  have filled (ws : List Value) (hws : ∀ w ∈ ws, w.IsScalar) (H : Heap) (vs : List Value) :
      Steps (ws.length + 1) ⟨H, vs⟩ ⟨(H.add (.ofSequence ws)).2, .table H.size :: vs⟩ :=
    .single (.table ws hws)
  have table := filled [] (List.forall_mem_nil _)
  cases d with
  | absent => exact scalar ⟨rfl, rfl⟩ h
  | present d => exact steps_toValue d h vs
  | unit => exact scalar ⟨rfl, rfl⟩ h
  | wrapped d => exact steps_toValue d h vs
  | boolean b => exact scalar ⟨rfl, rfl⟩ h
  | signed i => exact scalar ⟨rfl, rfl⟩ h
  | unsigned n =>
    refine scalar ?_ h
    unfold Value.ofUInt64
    split <;> exact ⟨rfl, rfl⟩
  | wide w => cases h
  | single x => exact scalar ⟨rfl, rfl⟩ h
  | double x => exact scalar ⟨rfl, rfl⟩ h
  | text s => exact scalar ⟨rfl, rfl⟩ h
  | bytes bs =>
    cases h
    have hbytes : ∀ w ∈ bs.map fun b => Value.ofInt64 (Int64.ofNat b.toNat), w.IsScalar := by
      intro w hw
      obtain ⟨b, -, rfl⟩ := List.mem_map.1 hw
      exact ⟨rfl, rfl⟩
    have hsteps := filled _ hbytes H vs
    rwa [List.length_map] at hsteps
  | sequence elements =>
    obtain ⟨rfl, helements⟩ := filled_eq_ok.1 h
    rw [Data.room, Nat.add_comm]
    exact (table H vs).append (steps_storeElements elements helements vs)
  | record fields =>
    obtain ⟨rfl, hfields⟩ := filled_eq_ok.1 h
    rw [Data.room, Nat.add_comm]
    exact (table H vs).append (steps_storeFields fields hfields vs)
  | map calls =>
    obtain ⟨rfl, hcalls⟩ := filled_eq_ok.1 h
    rw [Data.room, Nat.add_comm]
    exact (table H vs).append (steps_storeCalls calls hcalls vs)
  | alternative tag => exact scalar ⟨rfl, rfl⟩ h
  | tagged tag payload =>
    obtain ⟨w, H₁, hpayload, hrest⟩ := bind_eq_ok.1 h
    obtain ⟨rfl, hset⟩ := filled_eq_ok.1 hrest
    have hmade := (steps_toValue payload hpayload vs).append (table H₁ (w :: vs))
    exact (hmade.free (.sort (.swap w _ vs))).stored (k := .string tag) ⟨rfl, rfl⟩
      (set_eq_ok.1 hset)

/-- Elements are stored one after the other in a table at hand. -/
theorem steps_storeElements (ds : List Data) {t : TableId} {place : Nat} {H H' : Heap}
    (h : storeElements t place ds H = .ok ((), H')) (vs : List Value) :
    Steps (roomForElements ds) ⟨H, .table t :: vs⟩ ⟨H', .table t :: vs⟩ := by
  cases ds with
  | nil =>
    cases h
    exact .nil
  | cons d ds =>
    obtain ⟨v, H₁, hd, h⟩ := bind_eq_ok.1 h
    obtain ⟨_, H₂, hset, hrest⟩ := bind_eq_ok.1 h
    exact ((steps_toValue d hd _).stored (Value.isScalar_index _) (set_eq_ok.1 hset)).append
      (steps_storeElements ds hrest vs)

/-- Fields are stored one after the other in a table at hand. -/
theorem steps_storeFields (fs : List DataField) {t : TableId} {H H' : Heap}
    (h : storeFields t fs H = .ok ((), H')) (vs : List Value) :
    Steps (roomForFields fs) ⟨H, .table t :: vs⟩ ⟨H', .table t :: vs⟩ := by
  match fs, h with
  | [], h =>
    cases h
    exact .nil
  | .mk name d :: fs, h =>
    obtain ⟨v, H₁, hd, h⟩ := bind_eq_ok.1 h
    obtain ⟨_, H₂, hset, hrest⟩ := bind_eq_ok.1 h
    exact ((steps_toValue d hd _).stored (k := .string name) ⟨rfl, rfl⟩ (set_eq_ok.1 hset)).append
      (steps_storeFields fs hrest vs)

/-- Keys and values are taken one after the other. A key that waits for its value is at hand. -/
theorem steps_storeCalls (cs : List MapCall) {t : TableId} {pending : Option Value} {H H' : Heap}
    (h : storeCalls t pending cs H = .ok ((), H')) (vs : List Value) :
    Steps (roomForCalls cs) ⟨H, pending.toList ++ .table t :: vs⟩ ⟨H', .table t :: vs⟩ := by
  match cs, h with
  | [], h =>
    cases h
    exact Steps.nil.dropped
  | .key d :: cs, h =>
    obtain ⟨k, H₁, hd, h⟩ := bind_eq_ok.1 h
    dsimp only at h
    split at h
    · cases h
    · exact (steps_toValue d hd _).replaced.append (steps_storeCalls cs h vs)
  | .value d :: cs, h =>
    cases pending with
    | none => cases h
    | some k =>
      obtain ⟨v, H₁, hd, h⟩ := bind_eq_ok.1 h
      obtain ⟨_, H₂, hset, hrest⟩ := bind_eq_ok.1 h
      exact ((steps_toValue d hd _).concat (.store (set_eq_ok.1 hset))).append
        (steps_storeCalls cs hrest vs)

end

end Stage

end LuaGraph
