import Mathlib
import FormulaLang.Table

/-!
# FormulaLang.Proofs.ByteOrder

The order of texts by their code points is the order of their bytes in UTF-8 (`utf8Bytes_lt`).
Characters are compared first: more bytes begin with a greater one, and of two characters with as
many bytes the first byte that differs is greater in that of the greater code point
(`encodeChar_lt`). No character's bytes begin with all those of another, so that decides whatever
follows.
-/

namespace FormulaLang
namespace Text

def utf8Bytes (s : String) : List UInt8 := s.toUTF8.data.toList

theorem utf8Bytes_eq (s : String) : utf8Bytes s = s.toList.flatMap String.utf8EncodeChar := by
  rw [utf8Bytes, String.toUTF8, ← String.utf8Encode_toList, List.utf8Encode,
    List.toList_data_toByteArray]

/-- Lists of bytes are compared at the first byte, and behind it if that is the same. -/
theorem cons_byte_lt {m n : Nat} {r s : List UInt8} (hle : m ≤ n) (hn : n < 256)
    (h : m = n → r < s) : UInt8.ofNat m :: r < UInt8.ofNat n :: s := by
  rw [List.cons_lt_cons_iff, UInt8.lt_iff_toNat_lt, UInt8.toNat_ofNat_of_lt' (hle.trans_lt hn),
    UInt8.toNat_ofNat_of_lt' hn]
  rcases Nat.lt_or_eq_of_le hle with hlt | rfl
  · exact .inl hlt
  · exact .inr ⟨rfl, h rfl⟩

/-- The bytes of a character with a smaller code point are smaller, whatever stands behind them. -/
theorem encodeChar_lt {c d : Char} (h : c < d) (r s : List UInt8) :
    String.utf8EncodeChar c ++ r < String.utf8EncodeChar d ++ s := by
  obtain ⟨v, hv⟩ : ∃ v, v = c.val.toNat := ⟨_, rfl⟩
  obtain ⟨w, hw⟩ : ∃ w, w = d.val.toNat := ⟨_, rfl⟩
  have hlt : v < w := by
    rw [hv, hw]
    exact h
  have hbound : w < 0x110000 := by
    rw [hw]
    rcases d.valid with hlow | ⟨-, hhigh⟩
    · exact hlow.trans (by decide)
    · exact hhigh
  simp only [String.utf8EncodeChar, ← hv, ← hw]
  -- the first byte that differs is reached past equal ones, each of which leaves fewer digits
  split_ifs <;> simp only [List.cons_append, List.nil_append]
  all_goals
    repeat' first
      | omega
      | refine cons_byte_lt (by omega) (by omega) fun heq => ?_

theorem flatMap_encodeChar_lt {cs ds : List Char} (h : cs < ds) :
    cs.flatMap String.utf8EncodeChar < ds.flatMap String.utf8EncodeChar := by
  induction cs generalizing ds with
  | nil =>
    cases ds with
    | nil => exact absurd h (List.lt_irrefl _)
    | cons d ds =>
      obtain ⟨b, bs, hd⟩ := List.exists_cons_of_ne_nil (String.utf8EncodeChar_ne_nil (c := d))
      rw [List.flatMap_cons, hd]
      exact List.nil_lt_cons b _
  | cons c cs ih =>
    cases ds with
    | nil => exact absurd h (List.not_lt_nil _)
    | cons d ds =>
      rw [List.flatMap_cons, List.flatMap_cons]
      rcases List.cons_lt_cons_iff.mp h with hlt | ⟨rfl, hlt⟩
      · exact encodeChar_lt hlt _ _
      · exact List.append_left_lt (ih hlt)

theorem utf8Bytes_lt {a b : String} (h : a < b) : utf8Bytes a < utf8Bytes b := by
  rw [utf8Bytes_eq, utf8Bytes_eq]
  exact flatMap_encodeChar_lt (String.lt_iff_toList_lt.mp h)

end Text
end FormulaLang
