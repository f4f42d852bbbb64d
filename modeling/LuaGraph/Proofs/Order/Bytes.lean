/-!
# Strings by their bytes

Strings are ordered by their characters here, by their bytes in `SortKey`, and that is the order of
their UTF-8 bytes: of two characters the greater one has the longer encoding, which begins with a
greater byte, or one of the same length whose bytes are the digits of a greater number.

Result: `bytes_lt`.
-/

namespace LuaGraph.Text

/-- The UTF-8 bytes of a string. -/
def bytes (s : String) : List UInt8 := s.toUTF8.data.toList

theorem bytes_eq (s : String) : bytes s = s.toList.flatMap String.utf8EncodeChar := by
  unfold bytes
  rw [String.toUTF8, ← String.utf8Encode_toList, List.utf8Encode, List.data_toByteArray]

/-! ## Lists of bytes -/

/-- A list of bytes comes before another one, whatever follows either of them. -/
def Precedes (xs ys : List UInt8) : Prop := ∀ us vs, xs ++ us < ys ++ vs

variable {x y : UInt8} {xs ys : List UInt8}

theorem precedes_of_lt (h : x < y) : Precedes (x :: xs) (y :: ys) :=
  fun _ _ => List.cons_lt_cons_iff.2 (.inl h)

theorem Precedes.cons (h : Precedes xs ys) : Precedes (x :: xs) (x :: ys) :=
  fun us vs => List.cons_lt_cons_iff.2 (.inr ⟨rfl, h us vs⟩)

/-- The first byte decides, unless it is the same. -/
theorem precedes_cons {m n : Nat} (hn : n < 256) (hle : m ≤ n) (h : m = n → Precedes xs ys) :
    Precedes (UInt8.ofNat m :: xs) (UInt8.ofNat n :: ys) := by
  rcases Nat.lt_or_eq_of_le hle with hlt | rfl
  · exact precedes_of_lt (by
      rwa [UInt8.lt_iff_toNat_lt, UInt8.toNat_ofNat_of_lt' (Nat.lt_trans hlt hn),
        UInt8.toNat_ofNat_of_lt' hn])
  · exact (h rfl).cons

/-! ## Characters -/

/-- **The encoding of a smaller character comes first.** -/
theorem precedes_utf8EncodeChar {c d : Char} (h : c < d) :
    Precedes (String.utf8EncodeChar c) (String.utf8EncodeChar d) := by
  have hlt : c.val.toNat < d.val.toNat := h
  have hd : d.val.toNat < 0x110000 := by
    have hvalid : d.val.toNat.isValidChar := d.valid
    unfold Nat.isValidChar at hvalid
    omega
  unfold String.utf8EncodeChar
  dsimp only
  generalize c.val.toNat = m at *
  generalize d.val.toNat = n at *
  by_cases hm₁ : m ≤ 127
  · rw [if_pos hm₁]
    split
    · exact precedes_cons (by omega) (by omega) (by omega)
    · split
      · exact precedes_cons (by omega) (by omega) (by omega)
      · split <;> exact precedes_cons (by omega) (by omega) (by omega)
  rw [if_neg hm₁, if_neg (show ¬n ≤ 127 by omega)]
  by_cases hm₂ : m ≤ 2047
  · rw [if_pos hm₂]
    split
    · exact precedes_cons (by omega) (by omega) fun _ =>
        precedes_cons (by omega) (by omega) (by omega)
    · split <;> exact precedes_cons (by omega) (by omega) (by omega)
  rw [if_neg hm₂, if_neg (show ¬n ≤ 2047 by omega)]
  by_cases hm₃ : m ≤ 65535
  · rw [if_pos hm₃]
    split
    · exact precedes_cons (by omega) (by omega) fun _ => precedes_cons (by omega) (by omega)
        fun _ => precedes_cons (by omega) (by omega) (by omega)
    · exact precedes_cons (by omega) (by omega) (by omega)
  rw [if_neg hm₃, if_neg (show ¬n ≤ 65535 by omega)]
  exact precedes_cons (by omega) (by omega) fun _ => precedes_cons (by omega) (by omega) fun _ =>
    precedes_cons (by omega) (by omega) fun _ => precedes_cons (by omega) (by omega) (by omega)

/-! ## Strings -/

theorem flatMap_utf8EncodeChar_lt {cs ds : List Char} (h : cs < ds) :
    cs.flatMap String.utf8EncodeChar < ds.flatMap String.utf8EncodeChar := by
  induction h with
  | nil =>
    rename_i d ds
    obtain ⟨x, xs, hx⟩ := List.exists_cons_of_ne_nil (String.utf8EncodeChar_ne_nil (c := d))
    rw [List.flatMap_cons, hx]
    exact .nil
  | rel h =>
    rw [List.flatMap_cons, List.flatMap_cons]
    exact precedes_utf8EncodeChar h _ _
  | cons h ih =>
    rw [List.flatMap_cons, List.flatMap_cons]
    exact List.append_left_lt ih

/-- **Strings are ordered as their bytes.** -/
theorem bytes_lt {s t : String} (h : s < t) : bytes s < bytes t := by
  rw [bytes_eq, bytes_eq]
  exact flatMap_utf8EncodeChar_lt (String.lt_iff.1 h)

end LuaGraph.Text
