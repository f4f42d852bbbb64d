import LuaGraph.Proofs.Graph.Isomorphic

/-!
# Tables that are told apart

A table *tells its keys apart* if different tables among them have different signatures, in all
contexts in which it is listed. Such a context is given by the tables that are being signed
(`SIGNING`): each of them leads to the table that is listed.

Where all tables tell their keys apart, no keys are level, so values never decide. Then no sort
panics, and neither signatures nor listings depend on the order in which entries came in.

Results: **`exists_signature_of_perm`**, and `interchangeable_of_perm` for bindings.
-/

namespace LuaGraph.Heap

variable {H H' : Heap} {S : List TableId} {s t u : TableId}

/-- Tables that can be being signed while another one is listed. -/
structure SigningFor (H : Heap) (S : List TableId) (t : TableId) : Prop where
  nodup : S.Nodup
  inHeap : ∀ s ∈ S, s < H.size
  leads : ∀ s ∈ S, Census.Reach H.below [s] t

/-- **The tables among the keys of a table are told apart** by their signatures, whichever tables
are being signed. -/
def SignsApart (H : Heap) (t : TableId) : Prop :=
  ∀ S, H.SigningFor S t →
    Listing.Apart (Listing.known (H.signatureFrom? (H.size - S.length) S)) (H.writable t)

/-- One table among the keys is told apart by any signatures. -/
theorem signsApart_of_tableKeys (h : (H.writable t).countP (fun e => e.1.isTable) ≤ 1) :
    H.SignsApart t :=
  fun _ _ => Listing.apart_of_countP_le h _

theorem signingFor_nil (H : Heap) (t : TableId) : H.SigningFor [] t :=
  ⟨.nil, List.forall_mem_nil _, List.forall_mem_nil _⟩

/-- A table that has not been signed yet may be signed as well. -/
theorem SigningFor.cons (h : H.SigningFor S t) (ht : t < H.size) (hnot : t ∉ S)
    (hu : Census.Reach H.below [t] u) : H.SigningFor (t :: S) u where
  nodup := List.nodup_cons.2 ⟨hnot, h.nodup⟩
  inHeap := List.forall_mem_cons.2 ⟨ht, h.inHeap⟩
  leads := List.forall_mem_cons.2 ⟨hu, fun s hs => (h.leads s hs).trans hu⟩

theorem length_lt (hS : S.Nodup) (hin : ∀ s ∈ S, s < H.size) (ht : t < H.size) (hnot : t ∉ S) :
    S.length < H.size := by
  have hall : ∀ s ∈ t :: S, s < H.size := List.forall_mem_cons.2 ⟨ht, hin⟩
  have hsub : t :: S ⊆ List.range H.size := fun s hs => List.mem_range.2 (hall s hs)
  have hle := (List.subperm_of_subset (List.nodup_cons.2 ⟨hnot, hS⟩) hsub).length_le
  rwa [List.length_range] at hle

theorem signatureFrom?_of_mem (n : Nat) (h : t ∈ S) : H.signatureFrom? n S t = some "@" := by
  cases n with
  | zero => rfl
  | succ n => rw [signatureFrom?, if_pos h]

/-- The same tables are directly below tables with the same entries. -/
theorem mem_below_iff_of_perm (hperm : (H.table t).entries.Perm (H'.table t).entries) :
    u ∈ H.below t ↔ u ∈ H'.below t :=
  ((hperm.filter _).flatMap_right _).mem_iff

/-- The entries to be written can be sorted, if signatures tell their keys apart. -/
theorem isSome_entriesOf?_of_apart {bindings : TableId} (h : H.WellFormed)
    (ha : Listing.Apart (Listing.known H.signature?) (H.table bindings).entries)
    (hsign : ∀ u ∈ H.below bindings, (H.signature? u).isSome) :
    (Save.entriesOf? H bindings none).isSome := by
  obtain ⟨es, hes⟩ := Listing.exists_sortEntries (h.tables bindings).1.distinct (.inl ha.settles)
    hsign
  rw [Save.entriesOf?_eq, Save.missing, List.append_nil, sortEntries?, hes]
  rfl

section

variable {sign sign' : TableId → Option String}
  (hsign : ∀ u ∈ H.below t, ∃ s, sign u = some s ∧ sign' u = some s)
include hsign

/-- Tables among the keys have the same signatures. -/
theorem known_eq_of_mem {e : Entry} (he : e ∈ (H.table t).entries) (hu : u ∈ e.1.table?) :
    Listing.known sign' u = Listing.known sign u := by
  have hu := Value.eq_table_of_table? hu
  obtain ⟨s, hs, hs'⟩ := hsign u (Listing.mem_tablesOf.2 ⟨e, mem_writable he hu, .inl hu⟩)
  rw [← Listing.eq_known hs, ← Listing.eq_known hs']

variable (hperm : (H.table t).entries.Perm (H'.table t).entries)
include hperm

/-- The same signatures tell the same keys apart. -/
theorem apart_of_perm (ha : Listing.Apart (Listing.known sign) (H.writable t)) :
    Listing.Apart (Listing.known sign') (H'.table t).entries := by
  intro e he e' he' u w hu hw hsame
  have he := hperm.mem_iff.2 he
  have he' := hperm.mem_iff.2 he'
  rw [known_eq_of_mem hsign he (by rw [hu]; rfl),
    known_eq_of_mem hsign he' (by rw [hw]; rfl)] at hsame
  exact apart_entries ha e he e' he' u w hu hw hsame

/-- Tables with the same entries are listed alike, if their keys are told apart by signatures that
are the same. -/
theorem exists_ofTable_of_perm (h : H.WellFormed) (h' : H'.WellFormed)
    (ha : Listing.Apart (Listing.known sign) (H.writable t)) :
    ∃ l, Listing.ofTable sign (H.table t) = some l ∧
      Listing.ofTable sign' (H'.table t) = some l := by
  have hall := apart_entries ha
  have hsettles {text : TableId → String} {es : List Entry} (ha : Listing.Apart text es)
      (p : Entry → Bool) : Listing.Settles text (es.filter p) :=
    Listing.Apart.settles fun e he e' he' =>
      ha e (List.mem_of_mem_filter he) e' (List.mem_of_mem_filter he')
  obtain ⟨l, hl⟩ := Listing.exists_ofTable (h.tables t).1 (.inl (hsettles hall _))
    fun u hu => Option.isSome_iff_exists.2 ((hsign u hu).imp fun _ hs => hs.1)
  obtain ⟨l', hl'⟩ := Listing.exists_ofTable (h'.tables t).1
    (.inl (hsettles (apart_of_perm hsign hperm ha) _)) fun u hu =>
      Option.isSome_iff_exists.2
        ((hsign u ((mem_below_iff_of_perm hperm).2 hu)).imp fun _ hs => hs.2)
  obtain rfl := Listing.ofTable_eq_of_perm (h.tables t).1 (h'.tables t).1 hperm hall
    (fun e he u hu => known_eq_of_mem hsign he hu) hl hl'
  exact ⟨l, hl, hl'⟩

end

section

variable (h : H.WellFormed) (h' : H'.WellFormed)
  (hperm : ∀ t, (H.table t).entries.Perm (H'.table t).entries)
include h h' hperm

/-- What a table holds is in both heaps. -/
theorem lt_of_mem_below_of_perm (hu : u ∈ H.below t) : u < H.size ∧ u < H'.size := by
  obtain ⟨e, he, hu⟩ := Listing.mem_tablesOf.1 hu
  have he := List.mem_of_mem_filter he
  obtain ⟨hk, hv⟩ := h.closed t e he
  obtain ⟨hk', hv'⟩ := h'.closed t e ((hperm t).mem_iff.1 he)
  exact hu.elim (fun hu => ⟨hk u hu, hk' u hu⟩) fun hu => ⟨hv u hu, hv' u hu⟩

/-- **Signatures do not depend on the order of entries**, where all tables tell their keys apart. -/
theorem exists_signature_of_perm {S : List TableId} {t : TableId} (hS : H.SigningFor S t)
    (hS' : ∀ s ∈ S, s < H'.size) (ht : t < H.size ∧ t < H'.size)
    (hapart : ∀ u, Census.Reach H.below [t] u → H.SignsApart u) :
    ∃ s, H.signatureFrom? (H.size - S.length) S t = some s ∧
      H'.signatureFrom? (H'.size - S.length) S t = some s := by
  by_cases hmem : t ∈ S
  · exact ⟨"@", signatureFrom?_of_mem _ hmem, signatureFrom?_of_mem _ hmem⟩
  · have hlt := length_lt hS.nodup hS.inHeap ht.1 hmem
    have hlt' := length_lt hS.nodup hS' ht.2 hmem
    have hstep : H.size - S.length = H.size - (t :: S).length + 1 := by
      rw [List.length_cons]
      omega
    have hstep' : H'.size - S.length = H'.size - (t :: S).length + 1 := by
      rw [List.length_cons]
      omega
    rw [hstep, hstep']
    refine exists_signatureFrom? h fun u hu => ?_
    have hsigning := hS.cons ht.1 hmem hu
    refine exists_ofTable_of_perm (fun w hw => ?_) (hperm u) h h' (hapart u hu _ hsigning)
    exact exists_signature_of_perm (hS.cons ht.1 hmem (.child hu hw))
      (List.forall_mem_cons.2 ⟨ht.2, hS'⟩) (lt_of_mem_below_of_perm h h' hperm hw)
      fun x hx => hapart x (.trans (.child hu hw) hx)
termination_by H.size - S.length

/-- **Bindings with the same entries are interchangeable**, where all tables tell their keys apart.
-/
theorem interchangeable_of_perm {bindings : TableId}
    (hkeys : ∀ t, t = bindings ∨ Leads H.writable bindings t → H.SignsApart t) :
    Interchangeable H H' id bindings bindings none none := by
  have hsame (t : TableId) : SameOutlines id (H.writable t) (H'.writable t) :=
    ((hperm t).filter _).map _
  have hi : Isomorphic H H' id bindings bindings :=
    ⟨hsame bindings, fun t _ => hsame t, fun _ _ _ _ htu => htu⟩
  have hnone {H : Heap} : ∀ k ∈ requiredKeys H none, k.isTable = false := List.forall_mem_nil _
  have hapart {t : TableId} (ht : t = bindings ∨ Leads H.writable bindings t) :
      Listing.Apart (Listing.known H.signature?) (H.writable t) :=
    hkeys t ht [] (signingFor_nil H t)
  have hleads {t u : TableId} (ht : t = bindings ∨ Leads H.writable bindings t)
      (hu : u ∈ H.below t) : Leads H.writable bindings u := by
    rcases ht with rfl | ht
    · exact .root hu
    · exact .child ht hu
  have hsign {t : TableId} (ht : t = bindings ∨ Leads H.writable bindings t) (u : TableId)
      (hu : u ∈ H.below t) : ∃ s, H.signature? u = some s ∧ H'.signature? u = some s :=
    exists_signature_of_perm h h' hperm (signingFor_nil H u) (List.forall_mem_nil _)
      (lt_of_mem_below_of_perm h h' hperm hu) fun x hx => hkeys x (.inr (.trans (hleads ht hu) hx))
  have hlisted {t : TableId} (ht : Leads H.writable bindings t) : H.Listed t ∧ H'.Listed t := by
    obtain ⟨l, hl, hl'⟩ :=
      exists_ofTable_of_perm (hsign (.inr ht)) (hperm t) h h' (hapart (.inr ht))
    exact ⟨(listing_eq hl).1, (listing_eq hl').1⟩
  refine ⟨h, h', hi, ⟨?_, fun t ht => ?_⟩, ⟨?_, fun t ht => ?_⟩, fun t ht => hapart ht,
    fun t ht e he u hu => ?_, .nil, hnone⟩
  · exact isSome_entriesOf?_of_apart h (apart_entries (hapart (.inl rfl))) fun u hu =>
      Option.isSome_iff_exists.2 ((hsign (.inl rfl) u hu).imp fun _ hs => hs.1)
  · exact (hlisted ((reach_written_iff hnone).1 ht)).1
  · refine isSome_entriesOf?_of_apart h'
      (apart_of_perm (hsign (.inl rfl)) (hperm bindings) (hapart (.inl rfl))) fun u hu => ?_
    have hu := (mem_below_iff_of_perm (hperm bindings)).2 hu
    exact Option.isSome_iff_exists.2 ((hsign (.inl rfl) u hu).imp fun _ hs => hs.2)
  · obtain ⟨u, hu, rfl⟩ := hi.exists_of_leads ((reach_written_iff hnone).1 ht)
    exact (hlisted hu).2
  · exact known_eq_of_mem (hsign ht) (List.mem_of_mem_filter he) hu

end

end LuaGraph.Heap
