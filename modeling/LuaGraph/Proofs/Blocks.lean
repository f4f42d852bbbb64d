import LuaGraph.Proofs.Ladder

/-!
# Function blocks

The split form (`Strategy::Split`) is the reference form with its fill statements regrouped: each
group stands between the first and the last line of a function of its own. A group is closed once it
holds the budget of literals (`write_fills`), and its last statement may have taken it two literals
beyond. The parser counts at most one constant more than that in the function (`add_constant`).

Headlines:
* `packed_blocks`: what grouping within a budget gives.
* **`regroups_rendering`**: the text of the split form against that of the reference form.
* **`check_rendering_split`**: with three constants to spare above the budget, a text in blocks is
  rejected for nothing but the constants outside of them.
-/

namespace LuaGraph

open Chunk

/-! ## Groups within a budget -/

namespace Fill

/-- The number of literals in some fill statements. -/
def literalsIn (block : List Fill) : Nat := (block.map literals).sum

theorem literalsIn_reverse (block : List Fill) : literalsIn block.reverse = literalsIn block := by
  unfold literalsIn
  rw [List.map_reverse, List.sum_reverse]

/-- Blocks that are closed once they hold a budget of literals. -/
structure Packed (budget : Nat) (blocks : List (List Fill)) : Prop where
  nonempty : ∀ block ∈ blocks, block ≠ []
  /-- Every block but the last holds the budget. -/
  full : ∀ block ∈ blocks.dropLast, budget ≤ literalsIn block
  /-- The statement that fills the budget goes two literals beyond it at most. -/
  bounded : ∀ block ∈ blocks, literalsIn block ≤ budget + 2

namespace Packed

variable {budget : Nat} {block : List Fill} {blocks : List (List Fill)}

theorem nil : Packed budget [] where
  nonempty _ h := absurd h List.not_mem_nil
  full _ h := absurd h List.not_mem_nil
  bounded _ h := absurd h List.not_mem_nil

theorem last (hne : block ≠ []) (hle : literalsIn block ≤ budget + 2) :
    Packed budget [block] where
  nonempty := List.forall_mem_singleton.2 hne
  full _ h := absurd h List.not_mem_nil
  bounded := List.forall_mem_singleton.2 hle

theorem cons (hne : block ≠ []) (hfull : budget ≤ literalsIn block)
    (hle : literalsIn block ≤ budget + 2) (h : Packed budget blocks) :
    Packed budget (block :: blocks) where
  nonempty := List.forall_mem_cons.2 ⟨hne, h.nonempty⟩
  full b hb := by
    cases blocks with
    | nil => exact absurd hb List.not_mem_nil
    | cons b' blocks =>
      rcases List.mem_cons.1 hb with rfl | hb
      · exact hfull
      · exact h.full b hb
  bounded := List.forall_mem_cons.2 ⟨hle, h.bounded⟩

end Packed

variable {budget : Nat} {fs : List Fill}

/-- An open block and what follows it are packed, if the block was below the budget before its last
statement. -/
theorem packed_group (hb : 1 ≤ budget) (hfs : ∀ f ∈ fs, f.literals ≤ 3) {block : List Fill}
    (hle : literalsIn block ≤ budget + 2) :
    Packed budget (group budget block (literalsIn block) fs) := by
  induction fs generalizing block with
  | nil =>
    cases block with
    | nil => exact .nil
    | cons f block =>
      rw [group]
      · exact .last (by simp) (by rwa [literalsIn_reverse])
      · simp
  | cons f fs ih =>
    obtain ⟨hf, hfs⟩ := List.forall_mem_cons.1 hfs
    rw [group]
    split
    · rename_i hclose
      rw [Bool.and_eq_true, Bool.not_eq_true', decide_eq_true_eq] at hclose
      obtain ⟨hne, hfull⟩ := hclose
      have hone : literalsIn [f] = f.literals := by simp [literalsIn]
      refine .cons ?_ (by rwa [literalsIn_reverse]) (by rwa [literalsIn_reverse]) ?_
      · intro hnil
        rw [List.reverse_eq_nil_iff.1 hnil] at hne
        cases hne
      · rw [← hone]
        exact ih hfs (by omega)
    · rename_i hopen
      have hadd : literalsIn (f :: block) = literalsIn block + f.literals := by
        simp [literalsIn, Nat.add_comm]
      rw [← hadd]
      refine ih hfs ?_
      -- a statement is added to an empty block, or to one below the budget
      cases block with
      | nil =>
        rw [hadd]
        simp only [literalsIn, List.map_nil, List.sum_nil]
        omega
      | cons g block =>
        simp only [List.isEmpty_cons, Bool.not_false, Bool.true_and, decide_eq_true_eq] at hopen
        omega

/-- **Grouping packs statements** of three literals at most. -/
theorem packed_blocks (hb : 1 ≤ budget) (hfs : ∀ f ∈ fs, f.literals ≤ 3) :
    Packed budget (blocks budget fs) :=
  packed_group hb hfs (Nat.zero_le _)

end Fill

/-! ## Constants of a block -/

/-- The number of distinct constants that the parser counts in a list of them. -/
def distinct (cs : List Constant) : Nat := (cs.foldl (·.insert ·) (∅ : Constants)).size

/-- A block has at most one constant more than it has literals. -/
theorem distinct_blockConstants_le (block : List Fill) :
    distinct (Document.blockConstants block) ≤ Fill.literalsIn block + 1 :=
  (OfLiterals.flatMap block fun f _ => ofLiterals_fill f).size_le

/-! ## Pieces of a text -/

namespace Document

/-- A piece of the text of a document. -/
inductive Piece
  | preamble (slots : Nat)
  | opening
  | closing
  | fill (f : Fill)
  | binding (b : Binding)

namespace Piece

/-- The piece is the first or the last line of a function block. -/
def isDelimiter : Piece → Bool
  | opening => true
  | closing => true
  | _ => false

/-- The text of a piece. -/
def text (layout : Layout) (slots : Nat) : Piece → String
  | preamble n => Document.preamble n
  | opening => blockOpening
  | closing => blockClosing
  | fill f => f.text layout
  | binding b => b.text layout slots

end Piece

/-- The pieces of a group of fill statements. -/
def blockPieces (split : Bool) (block : List Fill) : List Piece :=
  if split then .opening :: (block.map .fill ++ [.closing]) else block.map .fill

/-- The pieces of a document. -/
def pieces (d : Document) : List Piece :=
  (if d.slots = 0 then [] else [.preamble d.slots]) ++
    d.blocks.flatMap (blockPieces d.split) ++ d.bindings.map .binding

/-- The text of some pieces, one after the other. -/
def piecesText (layout : Layout) (slots : Nat) (ps : List Piece) : String :=
  String.join (ps.map (·.text layout slots))

section

variable {layout : Layout} {slots : Nat}

theorem piecesText_append (ps qs : List Piece) : piecesText layout slots (ps ++ qs) =
    piecesText layout slots ps ++ piecesText layout slots qs := by
  unfold piecesText
  rw [List.map_append, String.join_append]

theorem piecesText_singleton (p : Piece) :
    piecesText layout slots [p] = p.text layout slots := by
  unfold piecesText
  rw [List.map_singleton, String.join_cons, String.join_nil, String.append_empty]

theorem piecesText_flatMap {α : Type} (f : α → List Piece) (xs : List α) :
    piecesText layout slots (xs.flatMap f) =
      String.join (xs.map fun x => piecesText layout slots (f x)) := by
  induction xs with
  | nil => rfl
  | cons x xs ih =>
    rw [List.flatMap_cons, piecesText_append, ih, List.map_cons, String.join_cons]

theorem piecesText_blockPieces (split : Bool) (block : List Fill) :
    piecesText layout slots (blockPieces split block) = blockText layout split block := by
  have hbody : piecesText layout slots (block.map .fill) =
      String.join (block.map (·.text layout)) := by
    unfold piecesText
    rw [List.map_map]
    rfl
  cases split with
  | false => exact hbody
  | true =>
    show piecesText layout slots ([.opening] ++ (block.map .fill ++ [.closing])) = _
    rw [piecesText_append, piecesText_append, piecesText_singleton, piecesText_singleton, hbody,
      ← String.append_assoc]
    rfl

/-- **The text of a document is that of its pieces.** -/
theorem text_eq_piecesText (layout : Layout) (d : Document) :
    d.text layout = piecesText layout d.slots d.pieces := by
  unfold text pieces
  rw [piecesText_append, piecesText_append, piecesText_flatMap]
  congr 1
  · congr 1
    · split
      · rfl
      · exact (piecesText_singleton (.preamble d.slots)).symm
    · simp only [piecesText_blockPieces]
  · unfold piecesText
    rw [List.map_map]
    rfl

end

theorem filter_blockPieces (split : Bool) (block : List Fill) :
    (blockPieces split block).filter (!·.isDelimiter) = block.map .fill := by
  have hbody : (block.map Piece.fill).filter (!·.isDelimiter) = block.map .fill :=
    List.filter_eq_self.2 (List.forall_mem_map.2 fun _ _ => rfl)
  cases split with
  | false => exact hbody
  | true =>
    show (Piece.opening :: (block.map .fill ++ [.closing])).filter (!·.isDelimiter) = _
    rw [List.filter_cons_of_neg (by simp [Piece.isDelimiter]), List.filter_append, hbody]
    exact List.append_nil _

/-- Without the delimiters of its blocks, a document is its fill statements between the preamble
and the bindings. -/
theorem filter_pieces (d : Document) :
    d.pieces.filter (!·.isDelimiter) =
      (if d.slots = 0 then [] else [.preamble d.slots]) ++ d.blocks.flatten.map .fill ++
        d.bindings.map .binding := by
  have hblocks : (d.blocks.flatMap (blockPieces d.split)).filter (!·.isDelimiter) =
      d.blocks.flatten.map .fill := by
    rw [List.filter_flatMap, List.map_flatten, List.flatMap_def]
    simp only [filter_blockPieces]
  have hpreamble : (if d.slots = 0 then [] else [Piece.preamble d.slots]).filter (!·.isDelimiter) =
      if d.slots = 0 then [] else [Piece.preamble d.slots] := by
    split <;> rfl
  unfold pieces
  rw [List.filter_append, List.filter_append, hpreamble, hblocks]
  exact congrArg _ (List.filter_eq_self.2 (List.forall_mem_map.2 fun _ _ => rfl))

/-- The tables in the slots and a single block. -/
def alone (d : Document) (block : List Fill) : Document :=
  { slots := d.slots, split := true, blocks := [block] }

end Document

/-! ## Regrouping -/

/-- **A document in blocks is a plain one, regrouped within a budget.** -/
structure Regroups (layout : Layout) (budget : Nat) (plain blocked : Document) : Prop where
  /-- Without the first and the last line of every block, the text is the other one. -/
  delimited : blocked.pieces.filter (!·.isDelimiter) = plain.pieces
  /-- Every fill statement is in one block, and no binding is in any. -/
  pieces : blocked.pieces = (if plain.slots = 0 then [] else [.preamble plain.slots]) ++
    blocked.blocks.flatMap (Document.blockPieces true) ++ plain.bindings.map .binding
  slots : blocked.slots = plain.slots
  fills : blocked.blocks.flatten = plain.blocks.flatten
  packed : Fill.Packed budget blocked.blocks
  constants : ∀ block ∈ blocked.blocks, distinct (Document.blockConstants block) ≤ budget + 3
  /-- After the preamble, each block alone is parsed with as many constants. -/
  parses : ∀ block ∈ blocked.blocks,
    parse ⟨budget + 3, 5⟩ ((blocked.alone block).text layout) = .ok (blocked.alone block).program

section

variable {H : Heap} {o : Options} {es : List Entry} {bindings : TableId} {required : Option TableId}
variable (h : H.WellFormed) (hin : ∀ e ∈ es, e.1.InHeap H ∧ e.2.InHeap H)
include h hin

theorem packed_ofBindings (hb : 1 ≤ o.blockBudget) :
    Fill.Packed o.blockBudget (Document.ofBindings H o .split (Save.censusOf H es) es).blocks := by
  have hflat : (Document.ofBindings H o .split (Save.censusOf H es) es).Flat :=
    flat_ofBindings h hin nofun
  refine Fill.packed_blocks hb fun f hf => ?_
  rw [← Fill.flatten_blocks o.blockBudget (Document.fills ..)] at hf
  obtain ⟨block, hblock, hf⟩ := List.mem_flatten.1 hf
  exact (hflat.fills block hblock f hf).literals_le

/-- Each block has at most as many constants as the budget leaves room for. -/
theorem distinct_block_le (hb : 1 ≤ o.blockBudget) {block : List Fill}
    (hblock : block ∈ (Document.ofBindings H o .split (Save.censusOf H es) es).blocks) :
    distinct (Document.blockConstants block) ≤ o.blockBudget + 3 := by
  have hconstants := distinct_blockConstants_le block
  have hliterals := (packed_ofBindings h hin hb).bounded block hblock
  omega

/-- A single block is parsed with the constants that the budget leaves room for. -/
theorem parse_alone (hb : 1 ≤ o.blockBudget) (layout : Layout) {block : List Fill}
    (hblock : block ∈ (Document.ofBindings H o .split (Save.censusOf H es) es).blocks) :
    let d := (Document.ofBindings H o .split (Save.censusOf H es) es).alone block
    parse ⟨o.blockBudget + 3, 5⟩ (d.text layout) = .ok d.program := by
  intro d
  have hwritable : (Document.ofBindings H o .split (Save.censusOf H es) es).Writable :=
    writable_ofBindings_flat h hin nofun
  have hflat : (Document.ofBindings H o .split (Save.censusOf H es) es).Flat :=
    flat_ofBindings h hin nofun
  have halone : d.Flat :=
    ⟨List.forall_mem_singleton.2 (hflat.fills block hblock), List.forall_mem_nil _⟩
  refine parse_text layout ⟨hwritable.slots, List.forall_mem_singleton.2
    (hwritable.fills block hblock), List.forall_mem_nil _⟩ (halone.within (Nat.le_refl 5)) ⟨?_, ?_⟩
  · have hchunk : d.constants.length ≤ 2 := by
      show ((if d.slots = 0 then [] else [naturalConstant 1, naturalConstant d.slots]) ++ [] ++
        []).length ≤ 2
      split <;> simp
    exact Nat.le_trans (size_le_length fun _ hc => hc) (Nat.le_trans hchunk (by dsimp only; omega))
  · exact fun _ => List.forall_mem_singleton.2 (distinct_block_le h hin hb hblock)

/-- **The document in blocks is the plain one, regrouped within the budget.** -/
theorem regroups_ofBindings (hb : 1 ≤ o.blockBudget) (layout : Layout) :
    Regroups layout o.blockBudget (Document.ofBindings H o .reference (Save.censusOf H es) es)
      (Document.ofBindings H o .split (Save.censusOf H es) es) := by
  have hfills : (Document.ofBindings H o .split (Save.censusOf H es) es).blocks.flatten =
      (Document.ofBindings H o .reference (Save.censusOf H es) es).blocks.flatten :=
    (Fill.flatten_blocks ..).trans List.flatten_singleton.symm
  refine ⟨?_, rfl, rfl, hfills, packed_ofBindings h hin hb, fun block hblock =>
    distinct_block_le h hin hb hblock, fun block hblock => parse_alone h hin hb layout hblock⟩
  rw [Document.filter_pieces, hfills]
  show _ = _ ++ List.flatMap (Document.blockPieces false) [_] ++ _
  rw [List.flatMap_singleton]
  show _ ++ (List.flatten [_]).map Document.Piece.fill ++ _ = _
  rw [List.flatten_singleton]
  rfl

end

section

variable {H : Heap} {o : Options} {bindings : TableId} {required : Option TableId}

theorem Save.flat_document (h : H.WellFormed) {form : Form} (hform : form ≠ .tree) :
    (Save.document H o bindings required form).Flat := by
  have hin (e : Entry) (he : e ∈ Save.entriesOf H bindings required) := inHeap_of_mem_entriesOf h he
  exact flat_ofBindings h hin hform

/-- Beyond the tree form there is always a text. -/
theorem Save.rendering_eq_ok (h : H.WellFormed) {form : Form} (hform : form ≠ .tree) :
    Save.rendering H o bindings required form =
      .ok ((Save.document H o bindings required form).text (Save.layoutOf o)) := by
  have hflat : (Save.document H o bindings required form).Flat := Save.flat_document h hform
  unfold Save.document at hflat ⊢
  unfold Save.rendering Save.render
  dsimp only at hflat ⊢
  rw [if_neg (Bool.eq_false_iff.1 hflat.isTooDeep)]

/-- **The text of the split form is that of the reference form, regrouped within the budget.** Where
a sort panics there is neither. -/
theorem Save.regroups_rendering (h : H.WellFormed) (hb : 1 ≤ o.blockBudget) (bindings : TableId)
    (required : Option TableId) :
    (Save.Sorts H bindings required →
      ∃ plain blocked, Regroups (Save.layoutOf o) o.blockBudget plain blocked ∧
        Save.rendering? H o bindings required .reference =
          some (.ok (Document.piecesText (Save.layoutOf o) plain.slots plain.pieces)) ∧
        Save.rendering? H o bindings required .split =
          some (.ok (Document.piecesText (Save.layoutOf o) blocked.slots blocked.pieces))) ∧
    (¬Save.Sorts H bindings required →
      Save.rendering? H o bindings required .reference = none ∧
        Save.rendering? H o bindings required .split = none) := by
  have hin (e : Entry) (he : e ∈ Save.entriesOf H bindings required) := inHeap_of_mem_entriesOf h he
  refine ⟨fun hs => ?_, fun hs =>
    ⟨Save.rendering?_of_not_sorts h hs, Save.rendering?_of_not_sorts h hs⟩⟩
  have htext (form : Form) (hform : form ≠ .tree) :
      Save.rendering? H o bindings required form =
        some (.ok (Document.piecesText (Save.layoutOf o)
          (Save.document H o bindings required form).slots
          (Save.document H o bindings required form).pieces)) := by
    rw [← Document.text_eq_piecesText, hs.rendering?_eq h]
    exact congrArg some (Save.rendering_eq_ok h hform)
  exact ⟨_, _, regroups_ofBindings h hin hb _, htext .reference nofun, htext .split nofun⟩

/-- Bindings with one table, of two entries. -/
def crowded : Heap where
  tables := #[⟨[(.string "t", .table 1)], 0⟩,
    ⟨[(.string "a", .string "x"), (.string "b", .string "y")], 0⟩]

theorem wellFormed_crowded : crowded.WellFormed := by decide +kernel

theorem sorts_crowded : Save.Sorts crowded 0 none := by
  have hdocument : (Save.rendering? crowded {} 0 none .tree).isSome := by decide +kernel
  obtain ⟨r, hr⟩ := Option.isSome_iff_exists.1 hdocument
  exact ((Save.rendering?_eq_some_iff wellFormed_crowded).1 hr).1

/-- The options under which a block is closed after its first statement. -/
def tight : Options := { blockBudget := 1, form := .split, limits := { maxConstants := 2 } }

theorem Save.regroups_rendering_crowded :
    (crowded.WellFormed ∧ 1 ≤ tight.blockBudget ∧ Save.Sorts crowded 0 none) ∧
      ∃ plain blocked, Regroups (Save.layoutOf tight) 1 plain blocked ∧
        Save.rendering? crowded tight 0 none .reference =
          some (.ok (Document.piecesText (Save.layoutOf tight) plain.slots plain.pieces)) ∧
        Save.rendering? crowded tight 0 none .split =
          some (.ok (Document.piecesText (Save.layoutOf tight) blocked.slots blocked.pieces)) :=
  ⟨⟨wellFormed_crowded, Nat.le_refl 1, sorts_crowded⟩,
    (Save.regroups_rendering wellFormed_crowded (Nat.le_refl 1) 0 none).1 sorts_crowded⟩

/-! ## Ceilings of a text in blocks -/

theorem Save.distinct_document_le (h : H.WellFormed) (hb : 1 ≤ o.blockBudget) {block : List Fill}
    (hblock : block ∈ (Save.document H o bindings required .split).blocks) :
    distinct (Document.blockConstants block) ≤ o.blockBudget + 3 := by
  have hin (e : Entry) (he : e ∈ Save.entriesOf H bindings required) := inHeap_of_mem_entriesOf h he
  exact distinct_block_le h hin hb hblock

/-- A text in blocks is accepted, if neither a block nor the chunk has too many constants. -/
theorem Save.check_document (h : H.WellFormed) (hb : 1 ≤ o.blockBudget)
    (hmax : o.blockBudget + 3 ≤ o.limits.maxConstants) (hdepth : 5 ≤ o.limits.maxDepth)
    (hchunk : distinct (Save.document H o bindings required .split).constants ≤
      o.limits.maxConstants) :
    check o.limits ((Save.document H o bindings required .split).text (Save.layoutOf o)) =
      .ok () := by
  have hin (e : Entry) (he : e ∈ Save.entriesOf H bindings required) := inHeap_of_mem_entriesOf h he
  have hflat : (Save.document H o bindings required .split).Flat := Save.flat_document h nofun
  have hwritable : (Save.document H o bindings required .split).Writable :=
    writable_ofBindings_flat h hin nofun
  have hcounted : (Save.document H o bindings required .split).Counted o.limits.maxConstants :=
    ⟨hchunk, fun _ _ hblock => Nat.le_trans (Save.distinct_document_le h hb hblock) hmax⟩
  unfold check
  rw [parse_text (Save.layoutOf o) hwritable (hflat.within hdepth) hcounted]

/-- **A text in blocks is rejected for nothing but the constants outside of them**, where the
ceiling leaves room for three constants beyond the budget. There is such a text unless a sort
panics. -/
theorem Save.check_rendering_split (h : H.WellFormed) (hb : 1 ≤ o.blockBudget)
    (hmax : o.blockBudget + 3 ≤ o.limits.maxConstants) (hdepth : 5 ≤ o.limits.maxDepth)
    (bindings : TableId) (required : Option TableId) :
    (Save.Sorts H bindings required → ∃ d text,
      Save.document? H o bindings required .split = some d ∧
      Save.rendering? H o bindings required .split = some (.ok text) ∧
      (∀ block ∈ d.blocks, distinct (Document.blockConstants block) ≤ o.limits.maxConstants) ∧
      (distinct d.constants ≤ o.limits.maxConstants → check o.limits text = .ok ())) ∧
    (¬Save.Sorts H bindings required → Save.rendering? H o bindings required .split = none) := by
  refine ⟨fun hs => ⟨_, _, hs.document?_eq h, ?_, fun _ hblock =>
    Nat.le_trans (Save.distinct_document_le h hb hblock) hmax,
    Save.check_document h hb hmax hdepth⟩, Save.rendering?_of_not_sorts h⟩
  exact (hs.rendering?_eq h).trans (congrArg some (Save.rendering_eq_ok h nofun))

/-- The options under which a block of three constants is closed. -/
def roomy : Options := { tight with limits := { maxConstants := 4 } }

theorem Save.check_rendering_split_crowded :
    (crowded.WellFormed ∧ 1 ≤ roomy.blockBudget ∧
      roomy.blockBudget + 3 ≤ roomy.limits.maxConstants ∧ 5 ≤ roomy.limits.maxDepth ∧
      Save.Sorts crowded 0 none) ∧
    ∃ d text, Save.document? crowded roomy 0 none .split = some d ∧
      Save.rendering? crowded roomy 0 none .split = some (.ok text) ∧
      (∀ block ∈ d.blocks, distinct (Document.blockConstants block) ≤ roomy.limits.maxConstants) ∧
      (distinct d.constants ≤ roomy.limits.maxConstants → check roomy.limits text = .ok ()) :=
  ⟨⟨wellFormed_crowded, by decide, by decide, by decide, sorts_crowded⟩,
    (Save.check_rendering_split wellFormed_crowded (by decide) (by decide) (by decide) 0 none).1
      sorts_crowded⟩

/-- **A budget below the ceiling is not enough**: a block that is closed after its first statement
has three constants already. -/
theorem Save.exists_block_beyond :
    1 ≤ tight.blockBudget ∧ tight.blockBudget < tight.limits.maxConstants ∧
      (∃ d, Save.document? crowded tight 0 none .split = some d ∧
        (∃ block ∈ d.blocks,
          tight.limits.maxConstants < distinct (Document.blockConstants block)) ∧
        distinct d.constants ≤ tight.limits.maxConstants) ∧
      ((Save.save? (fun text => return check tight.limits text) crowded tight 0 none).run.run
        ()).1 = some (.error (.unrecoverable .split
          "Syntax error at line 5, column 1: too many constants (limit is 2)")) := by
  have hblock : ((Save.document crowded tight 0 none .split).blocks.any fun block =>
      decide (tight.limits.maxConstants < distinct (Document.blockConstants block))) = true := by
    decide +kernel
  obtain ⟨block, hmem, hlt⟩ := List.any_eq_true.1 hblock
  exact ⟨by decide, by decide, ⟨_, sorts_crowded.document?_eq wellFormed_crowded,
    ⟨block, hmem, of_decide_eq_true hlt⟩, by decide +kernel⟩, by decide +kernel⟩

end

end LuaGraph
