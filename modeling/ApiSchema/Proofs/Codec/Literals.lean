import ApiSchema.Codec.Scalar
import ApiSchema.Proofs.Number.Digits
import Mathlib.Data.List.TakeWhile

/-! Texts of numbers and identifiers are of the form that readers look for. -/

namespace ApiSchema

theorem int_text (n : Int) :
    (toString n).toList = if n < 0 then '-' :: digitsOf n.natAbs else digitsOf n.natAbs := by
  rw [Int.toString_eq_repr, Int.repr_eq_if]
  by_cases negative : n < 0
  · rw [if_neg (by omega), if_pos negative, String.toList_append]
    have same : (-n).toNat = n.natAbs := by omega
    rw [same]
    rfl
  · rw [if_pos (by omega), if_neg negative]
    have same : n.toNat = n.natAbs := by omega
    rw [same]
    rfl

namespace Decimal

def Positional (body : List Char) : Prop :=
  ∃ whole fraction : List Char, whole ≠ [] ∧ whole.all isDigit = true ∧
    fraction.all isDigit = true ∧
      (body = whole ∧ fraction = [] ∨ body = whole ++ '.' :: fraction ∧ fraction ≠ [])

theorem with_places_positional {digits : List Char} (some : digits ≠ [])
    (all : digits.all isDigit = true) (places : Nat) : Positional (withPlaces digits places) := by
  unfold withPlaces
  split
  · exact ⟨digits, [], some, all, rfl, .inl ⟨rfl, rfl⟩⟩
  · next positive =>
    generalize filled : List.replicate (places + 1 - digits.length) '0' ++ digits = cs
    have long : places + 1 ≤ cs.length := by
      rw [← filled, List.length_append, List.length_replicate]
      omega
    have all' : cs.all isDigit = true := by
      rw [← filled, List.all_append, all, Bool.and_true]
      exact List.all_replicate.trans (by simp [is_digit_zero])
    rw [List.all_eq_true] at all'
    refine ⟨cs.take (cs.length - places), cs.drop (cs.length - places), ?_, ?_, ?_, .inr ⟨rfl, ?_⟩⟩
    · apply List.ne_nil_of_length_pos
      rw [List.length_take]
      omega
    · exact List.all_eq_true.mpr fun c member => all' c (List.mem_of_mem_take member)
    · exact List.all_eq_true.mpr fun c member => all' c (List.mem_of_mem_drop member)
    · apply List.ne_nil_of_length_pos
      rw [List.length_drop]
      omega

theorem plain_text_positional {d : Decimal} (finite : d.isFinite = true) :
    ∃ negative body, d.plainText.toList = (sign negative).toList ++ body ∧ Positional body := by
  cases d with
  | infinity | nan => cases finite
  | finite negative coefficient exponent =>
    have some := digits_of_ne_nil coefficient
    have all := digits_of_all coefficient
    refine ⟨negative, _, by rw [plainText, String.toList_append, String.toList_ofList], ?_⟩
    split
    · split
      · exact ⟨_, [], some, all, rfl, .inl ⟨rfl, rfl⟩⟩
      · refine ⟨_, [], List.append_ne_nil_of_left_ne_nil some _, ?_, rfl, .inl ⟨rfl, rfl⟩⟩
        rw [List.all_append, all, Bool.true_and]
        exact List.all_replicate.trans (by simp [is_digit_zero])
    · exact with_places_positional some all _

end Decimal

namespace Codec

theorem integer_text_of_digits {digits : List Char} (some : digits ≠ [])
    (all : digits.all isDigit = true) (negative : Bool) :
    isIntegerText ((Decimal.sign negative).toList ++ digits) = true := by
  cases negative with
  | true =>
    unfold isIntegerText
    simp [Decimal.sign, some]
    exact List.all_eq_true.mp all
  | false =>
    cases digits with
    | nil => exact absurd rfl some
    | cons c rest =>
      have first : c ≠ '-' := by
        rintro rfl
        simp [isDigit] at all
      unfold isIntegerText
      simp [Decimal.sign, first]
      simpa using all

theorem is_decimal_plain_text {d : Decimal} (finite : d.isFinite = true) :
    isDecimalText d.plainText.toList = true := by
  obtain ⟨negative, body, written, whole, fraction, some, all, all', shape⟩ :=
    Decimal.plain_text_positional finite
  have pointless : ∀ c ∈ (Decimal.sign negative).toList ++ whole, (c != '.') = true := by
    intro c member
    rcases List.mem_append.mp member with sign | digit
    · cases negative with
      | true =>
        rw [show (Decimal.sign true).toList = ['-'] from rfl, List.mem_singleton] at sign
        rw [sign]
        rfl
      | false => cases sign
    · have digit := List.all_eq_true.mp all c digit
      rw [bne_iff_ne]
      rintro rfl
      cases digit
  have integer := integer_text_of_digits some all negative
  rw [written]
  unfold isDecimalText
  rcases shape with ⟨rfl, _⟩ | ⟨rfl, more⟩
  · rw [List.dropWhile_eq_nil_iff.mpr pointless]
    exact integer
  · rw [← List.append_assoc, List.dropWhile_append_of_pos pointless,
      List.takeWhile_append_of_pos pointless]
    simp [integer, all', more]

theorem is_integer_int_text (n : Int) : isIntegerText (toString n).toList = true := by
  have some := digits_of_ne_nil n.natAbs
  have all := digits_of_all n.natAbs
  rw [int_text]
  split
  · exact integer_text_of_digits some all true
  · exact integer_text_of_digits some all false

theorem int_text_digits (n : Int) :
    ((toString n).toList.filter isDigit).length = (digitsOf n.natAbs).length := by
  have same : (digitsOf n.natAbs).filter isDigit = digitsOf n.natAbs :=
    List.filter_eq_self.mpr fun _ => is_digit_of_mem
  rw [int_text]
  split
  · rw [List.filter_cons_of_neg (by decide), same]
  · rw [same]

theorem lowered_of_large {c : Char} (large : 128 ≤ c.toNat) : c.toLower = c := by
  have upper : ¬(c.val ≥ 'A'.val ∧ c.val ≤ 'Z'.val) := by
    rintro ⟨_, last⟩
    have last : c.toNat ≤ 90 := last
    omega
  exact dif_neg upper

theorem lowered_hex_digit {c : Char} (hex : isHexDigit c = true) : isHexDigit c.toLower = true := by
  by_cases small : c.toNat < 128
  · revert hex
    exact Text.of_ascii c small (by decide +kernel)
  · rw [lowered_of_large (by omega)]
    exact hex

theorem lowered_dash (c : Char) : c.toLower = '-' ↔ c = '-' := by
  by_cases small : c.toNat < 128
  · exact Text.of_ascii c small (by decide +kernel)
  · rw [lowered_of_large (by omega)]

theorem lowered_all_hex {cs : List Char} (hex : cs.all isHexDigit = true) :
    (cs.map Char.toLower).all isHexDigit = true := by
  rw [List.all_map]
  exact List.all_eq_true.mpr fun c member => lowered_hex_digit (List.all_eq_true.mp hex c member)

theorem is_hex_lowered {cs : List Char} (hex : isHex cs = true) :
    isHex (cs.map Char.toLower) = true := by
  simp only [isHex, Bool.and_eq_true] at hex ⊢
  exact ⟨by rw [List.length_map]; exact hex.1, lowered_all_hex hex.2⟩

theorem split_lowered (cs : List Char) :
    Text.split '-' (cs.map Char.toLower) = (Text.split '-' cs).map (List.map Char.toLower) := by
  induction cs with
  | nil => rfl
  | cons c rest ih =>
    rw [List.map_cons, Text.split, Text.split, ih]
    by_cases dash : c = '-'
    · rw [if_pos dash, if_pos ((lowered_dash c).mpr dash)]
      rfl
    · rw [if_neg dash, if_neg (fun same => dash ((lowered_dash c).mp same))]
      cases Text.split '-' rest <;> rfl

theorem is_uuid_lowered {cs : List Char} (uuid : isUuid cs = true) :
    isUuid (cs.map Char.toLower) = true := by
  simp only [isUuid, Bool.and_eq_true] at uuid ⊢
  rw [split_lowered, List.map_map, List.all_map]
  have lengths : (List.length ∘ List.map Char.toLower : List Char → Nat) = List.length := by
    funext cs
    exact List.length_map _
  rw [lengths]
  refine ⟨uuid.1, List.all_eq_true.mpr fun group member => ?_⟩
  exact lowered_all_hex (List.all_eq_true.mp uuid.2 group member)

end Codec

end ApiSchema
