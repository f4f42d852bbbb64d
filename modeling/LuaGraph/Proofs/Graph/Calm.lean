import LuaGraph.Proofs.Graph.Order
import LuaGraph.Proofs.Panics

/-!
# When no sort panics

A sort can panic only where more than 20 entries are sorted and NaN is a value under one of several
table keys. Entries without that are *calm*. What is listed for a signature are tables that can be
reached, so if these are calm, they all have signatures, and they are listed.

This is what `sort_by` is documented to do with an order that is not total, and `SortKey::cmp` is
not total on NaN.

Results: **`Heap.listed_of_calm`**, `Save.Calm.sorts` for bindings, and `not_listed_unsettled` for a
table whose sort panics.
-/

namespace LuaGraph

namespace Listing

variable {es : List Entry}

/-- Entries that are sorted without a panic, whatever signatures tables have. -/
def Calm (es : List Entry) : Prop :=
  (es.filter fun e => !e.1.isHandle).length ≤ 20 ∨
    ∀ e ∈ es, ∀ e' ∈ es, ∀ t u, e.1 = .table t → e'.1 = .table u → t ≠ u → e.2.isNaN = false

theorem Calm.settles (h : Calm es) (text : TableId → String) :
    Settles text es ∨ (es.filter fun e => !e.1.isHandle).length ≤ 20 :=
  h.symm.imp_left fun hnan e he e' he' t u ht hu htu _ => hnan e he e' he' t u ht hu htu

end Listing

namespace Heap

variable {H H' : Heap} {t u : TableId} {n n' : Nat} {S : List TableId}

theorem mem_below_of_lists (h : H.WellFormed) {l : Listing} (hl : Listing.Lists (H.table t) l)
    (hu : u ∈ Census.children l) : u ∈ H.below t := by
  rw [Listing.children_eq] at hu
  exact ((hl.perm_pairs (h.tables t).1 (h.tables t).2).flatMap_right _).mem_iff.1 hu

/-- **A table has a signature** if what can be reached from it is listed for that, and the same one
in another heap where that is listed alike. -/
theorem exists_signatureFrom? (h : H.WellFormed)
    (hlisted : ∀ u, Census.Reach H.below [t] u → ∃ l,
      Listing.ofTable (H.signatureFrom? n (t :: S)) (H.table u) = some l ∧
      Listing.ofTable (H'.signatureFrom? n' (t :: S)) (H'.table u) = some l) :
    ∃ s, H.signatureFrom? (n + 1) S t = some s ∧ H'.signatureFrom? (n' + 1) S t = some s := by
  rw [signatureFrom?, signatureFrom?]
  split
  · exact ⟨_, rfl, rfl⟩
  · have hlisting (u : TableId) (hu : Census.Reach H.below [t] u) :
        Correspondence.totally.rel
          (fun l => True ∧ ∀ w ∈ Census.children l, Census.Reach H.below [t] w)
          (Listing.ofTable (H.signatureFrom? n (t :: S)) (H.table u))
          (Listing.ofTable (H'.signatureFrom? n' (t :: S)) (H'.table u)) := by
      obtain ⟨l, hl, hl'⟩ := hlisted u hu
      exact ⟨hl.trans hl'.symm, l, hl, trivial, fun w hw =>
        .child hu (mem_below_of_lists h (Listing.lists_ofTable hl) hw)⟩
    obtain ⟨heq, s, hs, -⟩ := Correspondence.totally.rel_textOf hlisting (v := .table t)
      fun u hu => .root (by rw [Option.some.inj hu]; exact List.mem_singleton_self u)
    exact ⟨s, hs, heq ▸ hs⟩

/-- A table whose sort does not panic, whatever signatures tables have. -/
def Calm (H : Heap) (t : TableId) : Prop :=
  Listing.Calm ((H.table t).entries.filter fun e => !Listing.inRun (H.table t) e.1)

/-- What can be reached from calm tables has signatures. -/
theorem isSome_signatureFrom? (h : H.WellFormed) (n : Nat) (S : List TableId)
    (hcalm : ∀ u, Census.Reach H.below [t] u → H.Calm u) :
    (H.signatureFrom? n S t).isSome := by
  induction n generalizing S t with
  | zero => rfl
  | succ n ih =>
    have hsign : ∃ s, H.signatureFrom? (n + 1) S t = some s ∧
        H.signatureFrom? (n + 1) S t = some s := exists_signatureFrom? h fun u hu => by
      obtain ⟨l, hl⟩ := Listing.exists_ofTable (h.tables u).1 ((hcalm u hu).settles _)
        fun w hw => ih (t :: S) fun x hx => hcalm x (.trans (.child hu hw) hx)
      exact ⟨l, hl, hl⟩
    obtain ⟨s, hs, -⟩ := hsign
    rw [hs]
    rfl

section

variable (h : H.WellFormed) {roots : List TableId}
  (hcalm : ∀ u, Census.Reach H.below roots u → H.Calm u)
include h hcalm

theorem isSome_signature? (ht : Census.Reach H.below roots t) : (H.signature? t).isSome :=
  isSome_signatureFrom? h H.size [] fun u hu => hcalm u (ht.trans hu)

/-- **Where all tables that can be reached are calm, they are listed.** -/
theorem listed_of_calm (ht : Census.Reach H.below roots t) : H.Listed t := by
  obtain ⟨l, hl⟩ := Listing.exists_ofTable (h.tables t).1 ((hcalm t ht).settles _) fun u hu =>
    isSome_signature? h hcalm (.child ht hu)
  rw [Listed, listing?, hl]
  rfl

end

/-- 2.0, 1.0 and NaN in turn. -/
def inTurn (i : Nat) : Value :=
  .number (.float (Float.ofBits
    (if i % 3 = 0 then 0x4000000000000000
      else if i % 3 = 1 then 0x3ff0000000000000 else 0x7ff8000000000000)))

/-- Bindings to a table with 22 empty tables as its keys, whose values are 2.0, 1.0 and NaN in turn,
and a table that holds this table twice. -/
def unsettled : Heap where
  tables := #[⟨[(.string "t", .table 1)], 0⟩,
    ⟨(List.range 22).map fun i => (.table (i + 3), inTurn i), 0⟩,
    ⟨[(.index 1, .table 1), (.index 2, .table 1)], 2⟩] ++ Array.replicate 22 {}

theorem wellFormed_unsettled : unsettled.WellFormed := by decide +kernel

/-- **A sort can panic**: 2.0 is level with NaN and NaN with 1.0, but 2.0 comes after 1.0. -/
theorem not_listed_unsettled : ¬unsettled.Listed 1 := by
  have hnone : unsettled.listing? 1 = none := by decide +kernel
  rw [Listed, hnone]
  exact Bool.false_ne_true

end Heap

namespace Save

/-- Bindings whose sorts do not panic, whatever signatures tables have. -/
structure Calm (H : Heap) (bindings : TableId) (required : Option TableId) : Prop where
  entries : Listing.Calm ((H.table bindings).entries ++ missing H bindings required)
  tables : ∀ t, Census.Reach H.below (Listing.tablesOf (written H bindings required)) t → H.Calm t

/-- **Bindings sort** if what is to be written and all tables that can be reached are calm. -/
theorem Calm.sorts {H : Heap} {bindings : TableId} {required : Option TableId}
    (hcalm : Calm H bindings required) (h : H.WellFormed) : Sorts H bindings required := by
  refine ⟨?_, fun t ht => Heap.listed_of_calm h hcalm.tables ht⟩
  obtain ⟨es, hes⟩ := Listing.exists_sortEntries
    ⟨fun e he => isKey_of_mem_bound h he, nodup_keys h bindings required⟩
    (hcalm.entries.settles _) fun t ht => Heap.isSome_signature? h hcalm.tables (.root ht)
  rw [entriesOf?_eq, Heap.sortEntries?, hes]
  rfl

theorem not_sorts_unsettled : ¬Sorts Heap.unsettled 0 none := fun hs =>
  Heap.not_listed_unsettled (hs.tables 1 (.root (by decide)))

end Save

end LuaGraph
