/-
  Texts in increasing order are in increasing order of their UTF-8 bytes.

  The first byte of a character tells how many bytes follow, and these are the last digits of its
  number to the base 64. For two characters either the first bytes differ, in the order of the
  numbers, or the same number of digits follows after the same number in front of them
  (`leading_lt_or_eq`); then the first digit that differs decides (`continuation_lt`). So the bytes
  of different characters differ before any of them ends (`utf8EncodeChar_lt`), and the order of
  characters is that of bytes, whatever follows (`utf8Bytes_lt`).
-/
import Mathlib.Algebra.GroupWithZero.Nat
import Mathlib.Data.List.Basic

namespace PropCalc.Text

/-- The bytes of a text in UTF-8. -/
def utf8Bytes (s : String) : List UInt8 := s.toUTF8.data.toList

theorem utf8Bytes_eq (s : String) : utf8Bytes s = s.toList.flatMap String.utf8EncodeChar := by
  have hs : s.toByteArray = s.toList.utf8Encode := by
    rw [← String.toByteArray_ofList, String.ofList_toList]
  rw [utf8Bytes, String.toUTF8_eq_toByteArray, hs, List.utf8Encode, List.toList_data_toByteArray]

/-! ## The bytes of a character -/

/-- How many bytes follow the first one of the character with this number. -/
def following (v : Nat) : Nat :=
  if v ≤ 0x7f then 0 else if v ≤ 0x7ff then 1 else if v ≤ 0xffff then 2 else 3

/-- The first byte of the character with this number. -/
def leading (v : Nat) : Nat :=
  if v ≤ 0x7f then v
  else if v ≤ 0x7ff then 0xc0 + v / 64
  else if v ≤ 0xffff then 0xe0 + v / 64 ^ 2
  else 0xf0 + v / 64 ^ 3

/-- The last `n` digits of `v` to the base 64, as bytes that follow a first one. -/
def continuation : Nat → Nat → List UInt8
  | 0, _ => []
  | n + 1, v => UInt8.ofNat (v / 64 ^ n % 64 + 0x80) :: continuation n v

theorem toNat_lt (c : Char) : c.val.toNat < 0x110000 := by
  rcases c.valid with h | ⟨-, h⟩
  · exact Nat.lt_trans h (by decide)
  · exact h

theorem leading_lt {v : Nat} (h : v < 0x110000) : leading v < 256 := by
  unfold leading
  split
  · omega
  split
  · omega
  split <;> omega

theorem utf8EncodeChar_eq (c : Char) :
    String.utf8EncodeChar c =
      UInt8.ofNat (leading c.val.toNat) ::
        continuation (following c.val.toNat) c.val.toNat := by
  have hbound := toNat_lt c
  unfold String.utf8EncodeChar leading following
  generalize c.val.toNat = v at hbound
  -- the first byte is written with a remainder that the size of the number makes superfluous
  dsimp only
  split
  · rfl
  split
  · rw [Nat.mod_eq_of_lt (by omega : v / 64 < 0x20), Nat.add_comm]
    simp [continuation]
  split
  · rw [Nat.mod_eq_of_lt (by omega : v / 4096 < 0x10), Nat.add_comm]
    simp [continuation]
  · rw [Nat.mod_eq_of_lt (by omega : v / 262144 < 0x08), Nat.add_comm]
    simp [continuation]

/-! ## The order of bytes -/

/-- The first bytes decide, or else what follows them. -/
theorem ofNat_cons_lt {a b : Nat} {as bs : List UInt8} (hb : b < 256)
    (h : a < b ∨ a = b ∧ as < bs) : UInt8.ofNat a :: as < UInt8.ofNat b :: bs := by
  rw [List.cons_lt_cons_iff]
  rcases h with h | ⟨rfl, h⟩
  · left
    rw [UInt8.lt_iff_toNat_lt, UInt8.toNat_ofNat', UInt8.toNat_ofNat',
      Nat.mod_eq_of_lt (Nat.lt_trans h hb), Nat.mod_eq_of_lt hb]
    exact h
  · exact .inr ⟨rfl, h⟩

/-- Of two numbers that agree in front of their last digits, the smaller one has the smaller
    digits. -/
theorem continuation_lt {v w n : Nat} (hfront : v / 64 ^ n = w / 64 ^ n) (h : v < w)
    (bs bs' : List UInt8) : continuation n v ++ bs < continuation n w ++ bs' := by
  induction n with
  | zero =>
    rw [Nat.pow_zero, Nat.div_one, Nat.div_one] at hfront
    omega
  | succ n ih =>
    have hle : v / 64 ^ n ≤ w / 64 ^ n := Nat.div_le_div_right (Nat.le_of_lt h)
    rw [Nat.pow_succ, ← Nat.div_div_eq_div_mul, ← Nat.div_div_eq_div_mul] at hfront
    apply ofNat_cons_lt (by omega)
    by_cases hdigit : v / 64 ^ n = w / 64 ^ n
    · exact .inr ⟨by rw [hdigit], ih hdigit⟩
    · exact .inl (by omega)

/-- Of two numbers the smaller one has the smaller first byte, unless only their last digits
    differ, and these are equally many. -/
theorem leading_lt_or_eq {v w : Nat} (h : v < w) :
    leading v < leading w ∨ leading v = leading w ∧ following v = following w ∧
      v / 64 ^ following v = w / 64 ^ following w := by
  unfold leading following
  grind

/-- The bytes of a smaller character are smaller, and they do not begin those of the other one. -/
theorem utf8EncodeChar_lt {c d : Char} (h : c < d) (bs bs' : List UInt8) :
    String.utf8EncodeChar c ++ bs < String.utf8EncodeChar d ++ bs' := by
  have hlt : c.val.toNat < d.val.toNat := h
  rw [utf8EncodeChar_eq, utf8EncodeChar_eq]
  apply ofNat_cons_lt (leading_lt (toNat_lt d))
  rcases leading_lt_or_eq hlt with hlead | ⟨hlead, hcount, hfront⟩
  · exact .inl hlead
  · rw [← hcount] at hfront ⊢
    exact .inr ⟨hlead, continuation_lt hfront hlt bs bs'⟩

theorem flatMap_utf8EncodeChar_lt {cs ds : List Char} (h : cs < ds) :
    cs.flatMap String.utf8EncodeChar < ds.flatMap String.utf8EncodeChar := by
  induction cs generalizing ds with
  | nil =>
    cases ds with
    | nil => exact absurd h (List.not_lt_nil _)
    | cons d ds =>
      rw [List.flatMap_cons, utf8EncodeChar_eq]
      exact List.nil_lt_cons _ _
  | cons c cs ih =>
    cases ds with
    | nil => exact absurd h (List.not_lt_nil _)
    | cons d ds =>
      rw [List.flatMap_cons, List.flatMap_cons]
      rcases List.cons_lt_cons_iff.mp h with hfirst | ⟨rfl, hrest⟩
      · exact utf8EncodeChar_lt hfirst _ _
      · exact List.append_left_lt (ih hrest)

/-- A text that comes before another one has the smaller bytes. -/
theorem utf8Bytes_lt {s t : String} (h : s < t) : utf8Bytes s < utf8Bytes t := by
  rw [utf8Bytes_eq, utf8Bytes_eq]
  exact flatMap_utf8EncodeChar_lt h

end PropCalc.Text
