import Mathlib.Algebra.Order.Ring.Nat
import BrokerConfig.Record.Id

namespace BrokerConfig.RecordId

theorem length_nibbles (count n : Nat) : (nibbles count n).length = count := by
  induction count generalizing n with
  | zero => rfl
  | succ count ih => rw [nibbles, List.length_append, ih, List.length_singleton]

theorem mapM_nibbles (count n : Nat) :
    ∃ values, (nibbles count n).mapM Text.Hex.value? = some values ∧
      values.foldl (fun n v => 16 * n + v) 0 = n % 16 ^ count := by
  induction count generalizing n with
  | zero =>
    refine ⟨[], rfl, ?_⟩
    rw [pow_zero, Nat.mod_one]
    rfl
  | succ count ih =>
    obtain ⟨values, hmap, hfold⟩ := ih (n / 16)
    have hlast : Text.Hex.value? (Text.Hex.digit (n % 16)) = some (n % 16) :=
      Text.Hex.value?_digit (Nat.mod_lt n (by decide))
    refine ⟨values ++ [n % 16], ?_, ?_⟩
    · simp [nibbles, List.mapM_append, hmap, hlast]
    · rw [List.foldl_append, hfold, pow_succ', Nat.mod_mul, Nat.add_comm]
      rfl

theorem ofDigits?_nibbles (id : RecordId) : ofDigits? (nibbles 32 id.bits.toNat) = some id := by
  obtain ⟨values, hmap, hfold⟩ := mapM_nibbles 32 id.bits.toNat
  have hlt : id.bits.toNat % 16 ^ 32 = id.bits.toNat := Nat.mod_eq_of_lt id.bits.isLt
  rw [ofDigits?, if_pos (length_nibbles _ _), hmap, Option.map_some, hfold, hlt,
    BitVec.ofNat_toNat, BitVec.setWidth_eq]

theorem hyphenate_cons (size next : Nat) (rest : List Nat) (digits : List Char) :
    hyphenate (size :: next :: rest) digits =
      digits.take size ++ '-' :: hyphenate (next :: rest) (digits.drop size) := rfl

theorem length_hyphenate (sizes : List Nat) (digits : List Char) (h : sizes.sum ≤ digits.length) :
    (hyphenate sizes digits).length = digits.length + (sizes.length - 1) := by
  induction sizes generalizing digits with
  | nil => rfl
  | cons size rest ih =>
    cases rest with
    | nil => rfl
    | cons next rest =>
      rw [List.sum_cons] at h
      have hdrop : (next :: rest).sum ≤ (digits.drop size).length := by
        rw [List.length_drop]
        omega
      have htail := ih (digits.drop size) hdrop
      simp only [hyphenate_cons, List.length_append, List.length_take, List.length_cons, htail,
        List.length_drop]
      omega

theorem unhyphenate?_hyphenate (sizes : List Nat) (digits : List Char)
    (h : sizes.sum ≤ digits.length) : unhyphenate? sizes (hyphenate sizes digits) = some digits := by
  induction sizes generalizing digits with
  | nil => rfl
  | cons size rest ih =>
    cases rest with
    | nil => rfl
    | cons next rest =>
      rw [List.sum_cons] at h
      have hsize : (digits.take size).length = size := by
        rw [List.length_take]
        omega
      have hdrop : (next :: rest).sum ≤ (digits.drop size).length := by
        rw [List.length_drop]
        omega
      have htail : (hyphenate (size :: next :: rest) digits).drop size =
          '-' :: hyphenate (next :: rest) (digits.drop size) := by
        rw [hyphenate_cons, List.drop_append_of_le_length hsize.ge, List.drop_of_length_le hsize.le]
        rfl
      have hhead : (hyphenate (size :: next :: rest) digits).take size = digits.take size := by
        rw [hyphenate_cons, List.take_append_of_le_length hsize.ge, List.take_of_length_le hsize.le]
      rw [unhyphenate?, htail, hhead]
      · show (unhyphenate? (next :: rest) _).map _ = _
        rw [ih _ hdrop, Option.map_some, List.take_append_drop]
      · exact List.cons_ne_nil _ _

theorem ofText?_print (id : RecordId) : ofText? id.print = some id := by
  have hsizes : groups.sum ≤ (nibbles 32 id.bits.toNat).length := by
    rw [length_nibbles]
    decide
  have hlength : id.chars.length = 36 := by
    rw [chars, length_hyphenate _ _ hsizes, length_nibbles]
    rfl
  have hdigits : ofDigits? id.chars = none := by
    rw [ofDigits?, if_neg]
    rw [hlength]
    decide
  have hhyphenated : ofHyphenated? id.chars = some id := by
    rw [ofHyphenated?, chars, unhyphenate?_hyphenate _ _ hsizes, Option.bind_some]
    exact ofDigits?_nibbles id
  rw [ofText?, print, String.toList_ofList]
  simp [hdigits, hhyphenated]

end BrokerConfig.RecordId
