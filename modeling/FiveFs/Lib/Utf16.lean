import Mathlib.Tactic.Ring

/-! UTF-16: the units of a string, and reading units with unpaired surrogates replaced. -/

namespace Utf16

/-- U+FFFD -/
def replacement : Char := Char.ofNat 0xFFFD

def ofChar (c : Char) : List Nat :=
  if c.toNat < 0x10000 then [c.toNat]
  else [0xD800 + (c.toNat - 0x10000) / 0x400, 0xDC00 + (c.toNat - 0x10000) % 0x400]

/-- `str::encode_utf16` -/
def encode (s : String) : List Nat := s.toList.flatMap ofChar

/-- A unit that is not the first of a pair. -/
def single (u : Nat) : Char := if 0xD800 ≤ u ∧ u < 0xE000 then replacement else Char.ofNat u

def decodeChars : List Nat → List Char
  | [] => []
  | [u] => [single u]
  | u :: v :: rest =>
      if (0xD800 ≤ u ∧ u < 0xDC00) ∧ 0xDC00 ≤ v ∧ v < 0xE000 then
        Char.ofNat (0x10000 + (u - 0xD800) * 0x400 + (v - 0xDC00)) :: decodeChars rest
      else single u :: decodeChars (v :: rest)

/-- `String::from_utf16_lossy` -/
def decodeLossy (units : List Nat) : String := String.ofList (decodeChars units)

theorem char_range (c : Char) : c.toNat < 0xD800 ∨ 0xDFFF < c.toNat ∧ c.toNat < 0x110000 := c.valid

theorem ofChar_lt (c : Char) : ∀ u ∈ ofChar c, u < 2 ^ 16 := by
  have range := char_range c
  intro u member
  rw [ofChar] at member
  split at member <;> simp at member <;> omega

theorem encode_lt (s : String) : ∀ u ∈ encode s, u < 2 ^ 16 := by
  intro u member
  obtain ⟨c, _, unit⟩ := List.mem_flatMap.mp member
  exact ofChar_lt c u unit

theorem decodeChars_single {u : Nat} (plain : ¬ (0xD800 ≤ u ∧ u < 0xDC00)) (rest : List Nat) :
    decodeChars (u :: rest) = single u :: decodeChars rest := by
  cases rest with
  | nil => rfl
  | cons v rest => rw [decodeChars, if_neg fun h => plain h.1]

theorem decodeChars_ofChar (c : Char) (rest : List Nat) :
    decodeChars (ofChar c ++ rest) = c :: decodeChars rest := by
  have range := char_range c
  rw [ofChar]
  split
  · rename_i small
    have plain : single c.toNat = c := by rw [single, if_neg (by omega), Char.ofNat_toNat]
    rw [List.singleton_append, decodeChars_single (by omega), plain]
  · rename_i large
    have whole : 0x10000 + (0xD800 + (c.toNat - 0x10000) / 0x400 - 0xD800) * 0x400 +
        (0xDC00 + (c.toNat - 0x10000) % 0x400 - 0xDC00) = c.toNat := by omega
    have paired : decodeChars ([0xD800 + (c.toNat - 0x10000) / 0x400,
        0xDC00 + (c.toNat - 0x10000) % 0x400] ++ rest) =
        Char.ofNat (0x10000 + (0xD800 + (c.toNat - 0x10000) / 0x400 - 0xD800) * 0x400 +
          (0xDC00 + (c.toNat - 0x10000) % 0x400 - 0xDC00)) :: decodeChars rest :=
      if_pos ⟨by omega, by omega⟩
    rw [paired, whole, Char.ofNat_toNat]

theorem decodeChars_flatMap (l : List Char) : decodeChars (l.flatMap ofChar) = l := by
  induction l with
  | nil => rfl
  | cons c l ih => rw [List.flatMap_cons, decodeChars_ofChar, ih]

theorem decodeLossy_encode (s : String) : decodeLossy (encode s) = s := by
  rw [decodeLossy, encode, decodeChars_flatMap, String.ofList_toList]

theorem toNat_ofNat {n : Nat} (valid : n.isValidChar) : (Char.ofNat n).toNat = n := by
  rw [Char.ofNat, dif_pos valid]
  rfl

theorem ofChar_single {u : Nat} (small : u < 2 ^ 16) : (ofChar (single u)).length = 1 := by
  rw [single]
  split
  · rfl
  · rename_i plain
    have whole : (Char.ofNat u).toNat = u := toNat_ofNat (by
      rw [Nat.isValidChar]
      omega)
    have one : u < 0x10000 := small
    rw [ofChar, whole, if_pos one]
    rfl

theorem length_decodeChars (units : List Nat) (small : ∀ u ∈ units, u < 2 ^ 16) :
    ((decodeChars units).flatMap ofChar).length = units.length := by
  fun_induction decodeChars units with
  | case1 => rfl
  | case2 u => simpa using ofChar_single (small u (by simp))
  | case3 u v rest pair ih =>
      have whole : (Char.ofNat (0x10000 + (u - 0xD800) * 0x400 + (v - 0xDC00))).toNat =
          0x10000 + (u - 0xD800) * 0x400 + (v - 0xDC00) := toNat_ofNat (by
        rw [Nat.isValidChar]
        omega)
      have two : (ofChar (Char.ofNat (0x10000 + (u - 0xD800) * 0x400 + (v - 0xDC00)))).length =
          2 := by
        rw [ofChar, whole, if_neg (by omega)]
        rfl
      have tail := ih fun x member => small x (by simp [member])
      rw [List.flatMap_cons, List.length_append, two, tail, List.length_cons, List.length_cons]
      omega
  | case4 u v rest alone ih =>
      have tail := ih fun x member => small x (List.mem_cons_of_mem _ member)
      rw [List.flatMap_cons, List.length_append, ofChar_single (small u (by simp)), tail,
          List.length_cons (a := u)]
      exact Nat.add_comm _ _

theorem length_encode_decodeLossy {units : List Nat} (small : ∀ u ∈ units, u < 2 ^ 16) :
    (encode (decodeLossy units)).length = units.length := by
  rw [encode, decodeLossy, String.toList_ofList]
  exact length_decodeChars units small

end Utf16
