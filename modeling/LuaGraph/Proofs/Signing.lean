import LuaGraph.Proofs.Graph.Apart
import Mathlib.Data.Finset.Card

/-!
# Taking signatures

To sign a table (`signature`) it is written, for which its keys are sorted, for which its table keys
are signed, and so on, with a new sketch for every signature. Here the tables that are being signed
(`SIGNING`) are a state: a table is put in when its signature begins and taken out when it ends,
however its sketch ends, and a table that is in is marked. Only a panic comes between the two.

An action gets a number of *steps*, of which each call takes one, and has no outcome where they do
not suffice. Every call takes a table in, or goes one level deeper in the sketch of the table that
was taken in last. So the number of tables that are not in and the levels that are left bound the
steps (`cost`).

Results: **`signing_ends`**: every call ends, as it would without a state; it leaves the state as it
was, unless a sort panics. `signing_panics`: then a table is left in.
-/

namespace LuaGraph

/-- An action while tables are being signed. It may panic, and may need more steps than there are.
-/
abbrev Signing := OptionT (StateT (Finset TableId) Option)

namespace Signing

/-! ## Actions -/

/-- There are no more steps. -/
def exhausted {α : Type} : Signing α := OptionT.mk fun _ => none

mutual

/-- The signature of a table. -/
def signature (H : Heap) : Nat → TableId → Signing String
  | 0, _ => exhausted
  | n + 1, t => do
    if t ∈ (← get) then return "@"
    modify (insert t)
    let (_, k) ← (value H n 0 (.table t)).run.run {}
    modify (·.erase t)
    return k.text

/-- Writes a value at a level. -/
def value (H : Heap) : Nat → Nat → Value → Sketch.Draw Signing Unit
  | 0, _, _ => liftM (exhausted (α := Unit))
  | n + 1, level, v =>
    match v.view with
    | .inl a => do Sketch.emit a.text; Sketch.check Sketch.signing
    | .inr t =>
      if Sketch.signing.maxDepth ≤ level then throw (.tooDeep Sketch.signing.maxDepth)
      else Sketch.table Sketch.signing (value H n (level + 1))
        (fun u => Listing.ofTable (signature H n) (H.table u)) t

end

/-! ## How actions end -/

section

variable {S S' : Finset TableId} {α β : Type} {p : Option α} {q : Signing α} {a : α}

/-- The action ends as it would without a state: it returns and leaves the state as it was, or it
panics and leaves no table out that was in. -/
def Ends (S : Finset TableId) (p : Option α) (q : Signing α) : Prop :=
  match p with
  | some a => q.run.run S = some (some a, S)
  | none => ∃ S', S ⊆ S' ∧ q.run.run S = some (none, S')

theorem run_bind (q : Signing α) (g : α → Signing β) (S : Finset TableId) :
    (q >>= g).run.run S = (q.run.run S).bind fun r =>
      match r.1 with
      | some a => (g a).run.run r.2
      | none => some (none, r.2) := by
  show ((q.run.run S).bind fun r => _) = _
  refine congrArg _ (funext fun r => ?_)
  obtain ⟨_ | a, S'⟩ := r <;> rfl

theorem run_bind_of_return {g : α → Signing β} (h : q.run.run S = some (some a, S')) :
    (q >>= g).run.run S = (g a).run.run S' := by
  rw [run_bind, h]
  rfl

theorem run_bind_of_panic {g : α → Signing β} (h : q.run.run S = some (none, S')) :
    (q >>= g).run.run S = some (none, S') := by
  rw [run_bind, h]
  rfl

/-- Sequences of actions that end, end. -/
def ending (S : Finset TableId) : Correspondence Option Signing where
  rel Q p q := Ends S p q ∧ ∀ a ∈ p, Q a
  pure h := ⟨rfl, fun _ ha => Option.some.inj ha ▸ h⟩
  bind := by
    rintro _ _ _ _ p q f g ⟨hends, hQ⟩ hfg
    cases p with
    | none =>
      obtain ⟨S', hsub, hq⟩ := hends
      exact ⟨⟨S', hsub, run_bind_of_panic hq⟩, fun _ hb => nomatch hb⟩
    | some a =>
      obtain ⟨hnext, hR⟩ := hfg a (hQ a rfl)
      refine ⟨?_, hR⟩
      have hrun := run_bind_of_return (g := g) hends
      show Ends S (f a) (q >>= g)
      unfold Ends at hnext ⊢
      rwa [hrun]

theorem ending_throw (Q : α → Prop) : (ending S).rel Q (throw ()) (throw ()) :=
  ⟨⟨S, Finset.Subset.refl S, rfl⟩, fun _ ha => nomatch ha⟩

end

/-! ## One call -/

section

variable {H : Heap} {S : Finset TableId} {sign : TableId → Option String}
  {sign' : TableId → Signing String}

/-- A signature that ends is the one that there is. -/
theorem ending_sign {t : TableId} (h : Ends S (sign t) (sign' t)) :
    (ending S).rel (· = Listing.known sign t) (sign t) (sign' t) :=
  ⟨h, fun _ => Listing.eq_known⟩

variable (hsign : ∀ t : Nat, t < H.size → Ends S (sign t) (sign' t))
include hsign

theorem ending_signed {v : Value} (hv : v.InHeap H) :
    Ends S (Listing.signed sign v) (Listing.signed sign' v) :=
  ((ending S).rel_signed fun t ht =>
    ending_sign (hsign t (hv t (Value.eq_table_of_table? ht)))).1

/-- What is in a heap is signed in it. -/
theorem ending_entries {es : List Entry} (hes : ∀ e ∈ es, e.1.InHeap H ∧ e.2.InHeap H) :
    ∀ e ∈ es, e.1.isHandle = false → ∀ t, t ∈ e.1.table? ∨ t ∈ e.2.table? →
      (ending S).rel (· = Listing.known sign t) (sign t) (sign' t) := fun e he _ t ht =>
  ending_sign (hsign t (ht.elim (fun ht => (hes e he).1 t (Value.eq_table_of_table? ht))
    fun ht => (hes e he).2 t (Value.eq_table_of_table? ht)))

theorem ends_sortEntries {es : List Entry} (hes : ∀ e ∈ es, e.1.InHeap H ∧ e.2.InHeap H) :
    Ends S (Listing.sortEntries sign es) (Listing.sortEntries sign' es) :=
  ((ending S).rel_sortEntries (Listing.known sign)
    (R := .any (· ∈ Listing.keyed (Listing.known sign) es)) (ending_entries hsign hes)
    (fun _ => Iff.rfl) (fun x y _ _ => by cases Listing.beforeBy _ x y <;> trivial)
    (.inr ending_throw)).1

variable (h : H.WellFormed)
include h

theorem ends_ofTable (t : TableId) :
    Ends S (Listing.ofTable sign (H.table t)) (Listing.ofTable sign' (H.table t)) :=
  ((ending S).bind (Q := fun _ => True) ⟨ends_sortEntries hsign fun e he =>
      h.closed t e (List.mem_of_mem_filter he), fun _ _ => trivial⟩
    fun _ _ => (ending S).pure trivial : (ending S).rel (fun _ => True) _ _).1

variable {write : Value → Sketch.Draw Option Unit} {write' : Value → Sketch.Draw Signing Unit}

/-- A table is written, where its keys and values are. -/
theorem ending_table
    (hwrite : ∀ v : Value, v.InHeap H →
      ((ending S).draw fun _ => True).rel (fun _ => True) (write v) (write' v)) (t : TableId) :
    ((ending S).draw fun _ => True).rel (fun _ => True)
      (Sketch.table Sketch.signing write (fun u => Listing.ofTable sign (H.table u)) t)
      (Sketch.table Sketch.signing write' (fun u => Listing.ofTable sign' (H.table u)) t) := by
  refine (ending S).rel_table ⟨ends_ofTable hsign h t, fun l hl => ⟨trivial, ?_⟩⟩
  have hpairs {e : Entry} (he : e ∈ l.pairs) : e.1.InHeap H ∧ e.2.InHeap H :=
    h.closed t e (((Listing.lists_ofTable hl).mem_pairs (h.tables t).1 (h.tables t).2).1 he).1
  refine (ending S).rel_body (fun v hv => hwrite v ?_) fun e he => ?_
  · rw [← List.zipIdx_map_fst 1 l.items] at hv
    obtain ⟨x, hx, rfl⟩ := List.mem_map.1 hv
    exact (hpairs (List.mem_append_left _ (List.mem_map_of_mem hx))).2
  · obtain ⟨hk, hv⟩ := hpairs (List.mem_append_right _ he)
    exact ⟨hwrite _ hk, hwrite _ hv⟩

end

/-! ## All calls -/

/-- The number of tables that are not being signed. -/
def unsigned (H : Heap) (S : Finset TableId) : Nat := (Finset.range H.size \ S).card

/-- How many nested calls a signature takes at most. -/
def cost (H : Heap) (S : Finset TableId) : Nat :=
  unsigned H S * (Sketch.signing.maxDepth + 1) + 1

theorem unsigned_insert {H : Heap} {S : Finset TableId} {t : Nat} (ht : t < H.size) (hS : t ∉ S) :
    unsigned H S = unsigned H (insert t S) + 1 := by
  have hmem : t ∈ Finset.range H.size \ S := Finset.mem_sdiff.2 ⟨Finset.mem_range.2 ht, hS⟩
  unfold unsigned
  rw [Finset.sdiff_insert, Finset.card_erase_add_one hmem]

theorem cost_insert {H : Heap} {S : Finset TableId} {t : Nat} (ht : t < H.size) (hS : t ∉ S) :
    cost H S = cost H (insert t S) + Sketch.signing.maxDepth + 1 := by
  unfold cost
  rw [unsigned_insert ht hS, Nat.add_mul]
  omega

/-- A signature takes its table in, and takes it out again if there is no panic. -/
theorem run_signature (H : Heap) (n : Nat) (t : TableId) (S : Finset TableId) :
    (signature H (n + 1) t).run.run S =
      if t ∈ S then some (some "@", S)
      else (((value H n 0 (.table t)).run.run {}).run.run (insert t S)).map fun r =>
        match r.1 with
        | some (_, k) => (some k.text, r.2.erase t)
        | none => (none, r.2) := by
  rw [signature]
  show (if t ∈ S then _ else _ : Signing String).run.run S = _
  split
  · rfl
  · show (((value H n 0 (.table t)).run.run {} >>= fun r => _ : Signing String).run.run
      (insert t S)) = _
    rw [run_bind]
    rcases ((value H n 0 (.table t)).run.run {}).run.run (insert t S) with
      _ | ⟨_ | ⟨_, k⟩, S'⟩ <;> rfl

/-- A signature ends where the sketch of its table does. After a panic its table is left in. -/
theorem ends_signature {H : Heap} {n : Nat} {t : TableId} {S : Finset TableId} (hS : t ∉ S)
    {drawn : Option (Except Error Unit × Sketch)}
    (h : Ends (insert t S) drawn ((value H n 0 (.table t)).run.run {})) :
    Ends S (drawn.map fun r => r.2.text) (signature H (n + 1) t) ∧
      (drawn = none → ∃ S', insert t S ⊆ S' ∧
        (signature H (n + 1) t).run.run S = some (none, S')) := by
  unfold Ends at h ⊢
  rw [run_signature, if_neg hS]
  cases drawn with
  | none =>
    obtain ⟨S', hsub, hpanic⟩ := h
    rw [hpanic]
    exact ⟨⟨S', (Finset.subset_insert t S).trans hsub, rfl⟩, fun _ => ⟨S', hsub, rfl⟩⟩
  | some r =>
    rw [h]
    exact ⟨congrArg (fun S => some (some r.2.text, S)) (Finset.erase_insert hS), nofun⟩

/-- The signature of a table that is not being signed is the text of its sketch. -/
theorem signatureFrom?_succ (H : Heap) {L : List TableId} {t : TableId} (hnot : t ∉ L)
    (steps : Nat) :
    H.signatureFrom? (steps + 1) L t = (Sketch.draw Sketch.signing
      (fun u => Listing.ofTable (H.signatureFrom? steps (t :: L)) (H.table u))
      (.table t)).map fun r => r.2.text := by
  rw [Heap.signatureFrom?, if_neg hnot, Sketch.textOf]
  cases Sketch.draw (m := Option) Sketch.signing _ (.table t) <;> rfl

section

variable {H : Heap} (h : H.WellFormed)
include h

/-- A value is written, where tables are signed and what is one level below is written. -/
theorem ending_value {n level : Nat} {S : Finset TableId} {sign : TableId → Option String}
    (hsign : level < Sketch.signing.maxDepth → ∀ t : Nat, t < H.size →
      Ends S (sign t) (signature H n t))
    (hwrite : level < Sketch.signing.maxDepth → ∀ v : Value, v.InHeap H →
      ((ending S).draw fun _ => True).rel (fun _ => True)
        (Sketch.value Sketch.signing (fun u => Listing.ofTable sign (H.table u))
          (Sketch.signing.maxDepth - (level + 1)) v)
        (value H n (level + 1) v)) (v : Value) :
    ((ending S).draw fun _ => True).rel (fun _ => True)
      (Sketch.value Sketch.signing (fun u => Listing.ofTable sign (H.table u))
        (Sketch.signing.maxDepth - level) v)
      (value H (n + 1) level v) := by
  unfold value Sketch.value
  cases v.view with
  | inl a => exact ((ending S).draw _).bind ((ending S).rel_emit _) fun _ _ => (ending S).rel_check
  | inr t =>
    by_cases hlevel : Sketch.signing.maxDepth ≤ level
    · rw [Nat.sub_eq_zero_of_le hlevel]
      simp only [if_pos hlevel]
      exact (ending S).rel_throw _
    · have hlt := Nat.lt_of_not_le hlevel
      have hdepth : Sketch.signing.maxDepth - level =
          Sketch.signing.maxDepth - (level + 1) + 1 := by omega
      rw [hdepth]
      simp only [if_neg hlevel]
      exact ending_table (hsign hlt) h (hwrite hlt) t

/-- Signatures are taken and values are written as they would be without a state. -/
theorem ends_signature_and_value (n : Nat) (S : Finset TableId) {L : List TableId}
    (hL : ∀ t, t ∈ L ↔ t ∈ S) {steps : Nat} (hsteps : unsigned H S ≤ steps) :
    (cost H S ≤ n → ∀ t : Nat, t < H.size →
      Ends S (H.signatureFrom? steps L t) (signature H n t) ∧
        (H.signatureFrom? steps L t = none → ∃ S', insert t S ⊆ S' ∧
          (signature H n t).run.run S = some (none, S'))) ∧
    ∀ level v, cost H S + (Sketch.signing.maxDepth - level) ≤ n → v.InHeap H →
      ((ending S).draw fun _ => True).rel (fun _ => True)
        (Sketch.value Sketch.signing
          (fun u => Listing.ofTable (H.signatureFrom? steps L) (H.table u))
          (Sketch.signing.maxDepth - level) v)
        (value H n level v) := by
  -- on the calls that are left: with one more table being signed a signature needs fewer, and each
  -- level of a value one fewer
  induction n generalizing S L steps with
  | zero =>
    have hpos : 0 < cost H S := Nat.succ_pos _
    exact ⟨fun hn => by omega, fun level v hn => by omega⟩
  | succ n ih =>
    constructor
    · intro hn t ht
      by_cases hS : t ∈ S
      · rw [Heap.signatureFrom?_of_mem _ ((hL t).2 hS)]
        refine ⟨?_, fun hnone => nomatch hnone⟩
        show (signature H (n + 1) t).run.run S = _
        rw [run_signature, if_pos hS]
      · have hcount := unsigned_insert ht hS
        have hcost := cost_insert ht hS
        obtain ⟨steps, rfl⟩ : ∃ m, steps = m + 1 := ⟨steps - 1, by omega⟩
        have hsteps' : unsigned H (insert t S) ≤ steps := by omega
        have hvalue := ((ih (insert t S) (L := t :: L) (fun u => by simp [hL u]) hsteps').2 0
          (.table t) (by omega) (fun u hu => by cases hu; exact ht) {} (fun _ _ => trivial)).1
        rw [signatureFrom?_succ H (mt (hL t).1 hS), Option.map_eq_none_iff]
        exact ends_signature hS hvalue
    · intro level v hn hv
      obtain ⟨hsign, hwrite⟩ := ih S hL hsteps
      exact ending_value h (fun hlevel t ht => (hsign (by omega) t ht).1)
        (fun hlevel v hv => hwrite (level + 1) v (by omega) hv) v

/-- **Taking signatures ends**, for every set of tables that are being signed: every call ends once
there are enough steps, as it would without a state. Unless a sort panics it leaves the set as it
was, whether its sketch gets to the end or is given up; after a panic the table is left in that was
to be signed. No sort panics for tables without NaN under several table keys. -/
theorem signing_ends (S : Finset TableId) {n : Nat} (hn : cost H S ≤ n) :
    let f := H.signatureFrom? (unsigned H S) S.toList
    (∀ t : Nat, t < H.size → Ends S (f t) (signature H n t)) ∧
      (∀ v, v.InHeap H → Ends S (Listing.signed f v) (Listing.signed (signature H n) v)) ∧
      (∀ es, (∀ e ∈ es, e.1.InHeap H ∧ e.2.InHeap H) →
        Ends S (Listing.sortEntries f es) (Listing.sortEntries (signature H n) es)) ∧
      (∀ t, Ends S (Listing.ofTable f (H.table t))
        (Listing.ofTable (signature H n) (H.table t))) ∧
      (∀ level v k, v.InHeap H →
        Ends S ((Sketch.value Sketch.signing (fun u => Listing.ofTable f (H.table u))
            (Sketch.signing.maxDepth - level) v).run.run k)
          ((value H (n + (Sketch.signing.maxDepth - level)) level v).run.run k)) ∧
      (∀ t : Nat, t < H.size → f t = none → ∃ S', insert t S ⊆ S' ∧
        (signature H n t).run.run S = some (none, S')) ∧
      (∀ t, (∀ u, Census.Reach H.below [t] u → H.Calm u) → (f t).isSome) ∧
      (S = ∅ → f = H.signature?) := by
  intro f
  have hL (t : TableId) : t ∈ S.toList ↔ t ∈ S := Finset.mem_toList
  have hall (n : Nat) := ends_signature_and_value h n S hL (Nat.le_refl _)
  have hsign (t : Nat) (ht : t < H.size) : Ends S (f t) (signature H n t) :=
    ((hall n).1 hn t ht).1
  refine ⟨hsign, fun v hv => ending_signed hsign hv, fun es hes => ends_sortEntries hsign hes,
    fun t => ends_ofTable hsign h t, fun level v k hv => ?_,
    fun t ht => ((hall n).1 hn t ht).2, fun t => Heap.isSome_signatureFrom? h _ _, ?_⟩
  · exact ((hall _).2 level v (Nat.add_le_add_right hn _) hv k fun _ _ => trivial).1
  · rintro rfl
    unfold f Heap.signature? unsigned
    rw [Finset.sdiff_empty, Finset.card_range, Finset.toList_empty]

end

/-- Two tables that are keys of themselves and of each other. -/
def knotted : Heap where
  tables := #[⟨[(.table 0, .table 1), (.table 1, .boolean true)], 0⟩,
    ⟨[(.table 1, .table 1), (.table 0, .string "x")], 0⟩]

theorem signing_ends_knotted :
    knotted.WellFormed ∧ cost knotted {1} ≤ 192 ∧
      (signature knotted 192 0).run.run {1} =
        some (some "\x7b[\x7b[@] = \"x\", [@] = @\x7d] = true, [@] = @\x7d", {1}) := by
  have hwf : knotted.WellFormed := by decide +kernel
  have hcost : cost knotted {1} ≤ 192 := by decide +kernel
  have hsign := (signing_ends hwf {1} hcost).1 0 (by decide)
  have hunsigned : unsigned knotted {1} = 1 := by decide +kernel
  have htext : knotted.signatureFrom? 1 [1] 0 =
      some "\x7b[\x7b[@] = \"x\", [@] = @\x7d] = true, [@] = @\x7d" := by decide +kernel
  rw [hunsigned, Finset.toList_singleton, htext] at hsign
  exact ⟨hwf, hcost, hsign⟩

/-- **After a panic a table is left in**, however many steps there are. -/
theorem signing_panics :
    Heap.unsettled.WellFormed ∧ ∀ n, cost Heap.unsettled ∅ ≤ n → ∃ S', (1 : TableId) ∈ S' ∧
      (signature Heap.unsettled n 1).run.run ∅ = some (none, S') := by
  have hpanics : Heap.unsettled.signature? 1 = none := by decide +kernel
  have hunsigned : unsigned Heap.unsettled ∅ ≤ Heap.unsettled.size := by
    unfold unsigned
    rw [Finset.sdiff_empty, Finset.card_range]
  refine ⟨Heap.wellFormed_unsettled, fun n hn => ?_⟩
  obtain ⟨hsign, -⟩ := ends_signature_and_value Heap.wellFormed_unsettled n ∅ (L := [])
    (fun t => by simp) hunsigned
  obtain ⟨S', hsub, hrun⟩ := (hsign hn 1 (by decide)).2 hpanics
  exact ⟨S', hsub (Finset.mem_insert_self 1 ∅), hrun⟩

end Signing

end LuaGraph
