import ApiSchema.Proofs.Base64
import ApiSchema.Proofs.Calendar.Spelling
import ApiSchema.Proofs.Codec.Bound
import ApiSchema.Proofs.Codec.Literals
import ApiSchema.Proofs.Json.RoundTrip
import ApiSchema.Proofs.Value.Parts

/-! Every scalar type has one transmitted form for each of its values. -/

namespace ApiSchema

theorem digits_of_times_ten {n : Nat} (positive : 0 < n) : digitsOf (n * 10) = digitsOf n ++ ['0'] := by
  rw [digits_of_eq, digits_of_eq, Nat.toDigits_of_base_le (by decide) (by omega)]
  rw [Nat.mul_div_cancel _ (by decide), Nat.mul_mod_left]
  rfl

theorem digits_of_times_power {n : Nat} (positive : 0 < n) (places : Nat) :
    digitsOf (n * 10 ^ places) = digitsOf n ++ List.replicate places '0' := by
  induction places with
  | zero => simp
  | succ places ih =>
    rw [Nat.pow_succ, ← Nat.mul_assoc, digits_of_times_ten (Nat.mul_pos positive (by positivity)), ih,
      List.append_assoc, List.replicate_succ']

namespace Decimal

theorem of_numeral_body {body : List Char} (plain : ∀ c ∈ body, c ≠ '-' ∧ c ≠ 'e' ∧ c ≠ 'E')
    (negative : Bool) : ofNumeral ((sign negative).toList ++ body) =
      .finite negative (digitsValue (readPlain body).1) (-((readPlain body).2 : Int)) := by
  have unmarked : ∀ c ∈ body, (!(c == 'e' || c == 'E')) = true := by
    intro c member
    obtain ⟨_, small, large⟩ := plain c member
    simp [small, large]
  have taken : body.takeWhile (fun c => !(c == 'e' || c == 'E')) = body :=
    List.takeWhile_eq_self_iff.mpr unmarked
  have dropped : body.dropWhile (fun c => !(c == 'e' || c == 'E')) = [] :=
    List.dropWhile_eq_nil_iff.mpr unmarked
  have unsigned : ∀ rest, body ≠ '-' :: rest := by
    rintro rest rfl
    exact (plain '-' (List.mem_cons_self ..)).1 rfl
  cases negative with
  | true =>
    rw [show (sign true).toList ++ body = '-' :: body from rfl, ofNumeral]
    simp only [taken, dropped, List.drop_nil]
    rw [show digitsValue [] = 0 from rfl]
    simp
  | false =>
    rw [show (sign false).toList ++ body = body from rfl, ofNumeral]
    · simp only [taken, dropped, List.drop_nil]
      rw [show digitsValue [] = 0 from rfl]
      simp
    · exact unsigned

theorem read_plain_digits {digits : List Char} (all : digits.all isDigit = true) :
    readPlain digits = (digits, 0) := by
  have pointless : ∀ c ∈ digits, (c != '.') = true := by
    intro c member
    rw [bne_iff_ne]
    rintro rfl
    cases List.all_eq_true.mp all '.' member
  unfold readPlain
  simp only [List.takeWhile_eq_self_iff.mpr pointless, List.dropWhile_eq_nil_iff.mpr pointless]
  simp

theorem read_plain_point {whole fraction : List Char} (all : whole.all isDigit = true) :
    readPlain (whole ++ '.' :: fraction) = (whole ++ fraction, fraction.length) := by
  have pointless : ∀ c ∈ whole, (c != '.') = true := by
    intro c member
    rw [bne_iff_ne]
    rintro rfl
    cases List.all_eq_true.mp all '.' member
  unfold readPlain
  simp only [List.takeWhile_append_of_pos pointless, List.dropWhile_append_of_pos pointless]
  simp

theorem plain_of_digits {digits : List Char} (all : digits.all isDigit = true) :
    ∀ c ∈ digits, c ≠ '-' ∧ c ≠ 'e' ∧ c ≠ 'E' := by
  intro c member
  have digit := List.all_eq_true.mp all c member
  refine ⟨?_, ?_, ?_⟩ <;>
    · rintro rfl
      cases digit

def positional : Decimal → Decimal
  | .finite negative coefficient exponent =>
    if 0 ≤ exponent then .finite negative (coefficient * 10 ^ exponent.toNat) 0
    else .finite negative coefficient exponent
  | d => d

theorem of_numeral_plain_text {d : Decimal} (finite : d.isFinite = true) :
    ofNumeral d.plainText.toList = d.positional := by
  cases d with
  | infinity | nan => cases finite
  | finite negative coefficient exponent =>
    have all := digits_of_all coefficient
    rw [plainText, String.toList_append, String.toList_ofList, positional]
    split
    · next above =>
      obtain ⟨n, rfl⟩ := Int.eq_ofNat_of_zero_le above
      have more : (digitsOf coefficient ++ List.replicate (Int.toNat n) '0').all isDigit = true := by
        rw [List.all_append, all, all_digits_replicate]
        rfl
      split
      · next none =>
        rw [of_numeral_body (plain_of_digits all), read_plain_digits all, none]
        simp [digits_of_zero]
        rfl
      · rw [of_numeral_body (plain_of_digits more), read_plain_digits more, digits_value_append_nulls,
          digits_value_of]
        rfl
    · next below =>
      obtain ⟨n, rfl⟩ : ∃ n : Nat, exponent = -(n : Int) := ⟨exponent.natAbs, by omega⟩
      rw [withPlaces, if_neg (by omega)]
      dsimp only
      rw [Int.natAbs_neg, Int.natAbs_natCast]
      generalize filled : List.replicate (n + 1 - (digitsOf coefficient).length) '0' ++
        digitsOf coefficient = cs
      have long : n + 1 ≤ cs.length := by
        rw [← filled, List.length_append, List.length_replicate]
        omega
      have all' : cs.all isDigit = true := by
        rw [← filled, List.all_append, all, all_digits_replicate]
        rfl
      have value : digitsValue cs = coefficient := by
        rw [← filled, digits_value_append_zeros, digits_value_of]
      have front : (cs.take (cs.length - n)).all isDigit = true :=
        List.all_eq_true.mpr fun c member =>
          List.all_eq_true.mp all' c (List.mem_of_mem_take member)
      have back : (cs.drop (cs.length - n)).all isDigit = true :=
        List.all_eq_true.mpr fun c member =>
          List.all_eq_true.mp all' c (List.mem_of_mem_drop member)
      rw [of_numeral_body, read_plain_point front, List.take_append_drop, value, List.length_drop]
      · congr 1
        omega
      · intro c member
        rcases List.mem_append.mp member with before | behind
        · exact plain_of_digits front c before
        · rcases List.mem_cons.mp behind with rfl | later
          · decide
          · exact plain_of_digits back c later

theorem positional_plain_text {d : Decimal} (finite : d.isFinite = true) :
    d.positional.plainText = d.plainText := by
  cases d with
  | infinity | nan => cases finite
  | finite negative coefficient exponent =>
    rw [positional]
    split
    · next above =>
      obtain ⟨n, rfl⟩ := Int.eq_ofNat_of_zero_le above
      simp only [plainText, above, Int.toNat_natCast]
      rcases Nat.eq_zero_or_pos coefficient with rfl | positive
      · simp
      · have more : 0 < coefficient * 10 ^ n := Nat.mul_pos positive (by positivity)
        simp [digits_of_times_power positive, more.ne', positive.ne']
    · rfl

theorem positional_finite {d : Decimal} (finite : d.isFinite = true) :
    d.positional.isFinite = true := by
  cases d with
  | infinity | nan => cases finite
  | finite =>
    rw [positional]
    split <;> rfl

theorem of_numeral_finite (numeral : List Char) : (ofNumeral numeral).isFinite = true := by
  unfold ofNumeral
  split
  rfl

end Decimal

namespace Timestamp

theorem universal_self {t : Timestamp} (valid : t.isValid = true) (near : t.offset.getD 0 = 0) :
    t.toUniversal? = some { t with offset := some 0 } := by
  obtain ⟨_, ⟨hours, minutes, seconds, _⟩, _⟩ := is_valid_iff.mp valid
  obtain ⟨date, hour, minute, second, microsecond, offset⟩ := t
  dsimp only at near hours minutes seconds
  unfold toUniversal? daySeconds secondsPerDay
  dsimp only
  rw [near, if_neg (by omega), if_neg (by omega)]
  simp only [withDaySeconds, Option.some.injEq, Timestamp.mk.injEq, true_and, and_true]
  omega

end Timestamp

namespace Codec

theorem or_mismatch_ok {α : Type} {path expected : String} {value : Value} {found : Option α} {a : α} :
    orMismatch path expected value found = .ok a ↔ found = some a := by
  cases found with
  | some b => simp [orMismatch]
  | none =>
    simp only [orMismatch, mismatch, described]
    cases value.described? <;> simp [bind, Except.bind]

theorem universal_ok {t u : Timestamp} : universal t = .ok u ↔ t.toUniversal? = some u := by
  unfold universal
  split <;> simp_all

/-- The transmitted form of a value of a scalar type, which is decoded to the value. -/
def FormOf [UrlNormaliser] (s : Scalar) (value sent : Value) : Prop :=
  (∀ path name, decodeScalar path name s sent = .ok value) ∧
    ∀ path name, encodeScalar path name s value = .ok sent

def Rewritten [UrlNormaliser] (s : Scalar) (sent : Value) : Prop := ∃ value, FormOf s value sent

section Forms

variable {path name : String} {value sent : Value}

theorem bytes_form [UrlNormaliser] (content : List UInt8) :
    FormOf .bytes (.bytes content) (.string (String.ofList (Base64.encode content))) := by
  refine ⟨fun path name => ?_, fun path name => rfl⟩
  simp only [decodeScalar, String.toList_ofList, Base64.decode_encode]
  rfl

theorem bigint_form [UrlNormaliser] {n : Int} {text : String} (written : Json.intText? n = some text) :
    FormOf .bigint (.int n) (.string text) := by
  have shown := written
  unfold Json.intText? at written
  dsimp only at written
  split at written
  · cases written
  · next short =>
    cases written
    refine ⟨fun path name => ?_, fun path name => ?_⟩
    · have integer := is_integer_int_text n
      have fits : isTooLong (.string (toString n)) = false := by
        rw [isTooLong, int_text_digits]
        simpa using short
      simp only [decodeScalar, integer, fits, not_true_eq_false, if_false, Bool.false_eq_true]
      have value := digits_value_of n.natAbs
      split
      · next digits signed =>
        rw [int_text] at signed
        split at signed
        · next negative =>
          cases signed
          rw [value]
          congr 2
          omega
        · have first := (whole_digits_of n.natAbs).all
          rw [signed] at first
          cases first
      · next unsigned =>
        have positive : ¬ n < 0 := by
          intro negative
          rw [int_text, if_pos negative] at unsigned
          exact unsigned _ rfl
        rw [int_text, if_neg positive, value]
        congr 2
        omega
    · simp only [encodeScalar, shown]

theorem decimal_form [UrlNormaliser] {d : Decimal} (finite : d.isFinite = true) :
    FormOf .decimal (.decimal d.positional) (.string d.plainText) := by
  refine ⟨fun path name => ?_, fun path name => ?_⟩
  · simp only [decodeScalar, decimalOf?, is_decimal_plain_text finite, if_true,
      Decimal.of_numeral_plain_text finite]
    rfl
  · simp only [encodeScalar, Decimal.positional_finite finite, if_true,
      Decimal.positional_plain_text finite]

theorem date_form [UrlNormaliser] {d : Date} (valid : d.isValid = true) :
    FormOf .date (.date d) (.string d.text) := by
  refine ⟨fun path name => ?_, fun path name => rfl⟩
  simp only [decodeScalar, dateOf?, Date.of_text_text valid]
  rfl

def received (t : Timestamp) : Timestamp := { t.truncated with offset := some 0 }

theorem universal_truncated {t : Timestamp} (valid : t.isValid = true) :
    universal t.truncated = .ok (received t) := by
  rw [universal_ok, Timestamp.universal_self (Timestamp.truncated_valid valid) rfl]
  rfl

theorem received_text (t : Timestamp) : (received t).millisecondText = t.millisecondText := by
  have same : t.microsecond / 1000 * 1000 / 1000 = t.microsecond / 1000 := by omega
  simp only [received, Timestamp.truncated, Timestamp.millisecondText, Timestamp.clockText, same]

theorem datetime_form [UrlNormaliser] {t : Timestamp} (valid : t.isValid = true) :
    FormOf .datetime (.timestamp (received t)) (.string t.millisecondText) := by
  refine ⟨fun path name => ?_, fun path name => ?_⟩
  · simp only [decodeScalar, timestampOf?, Timestamp.of_text_millisecond_text valid, orMismatch,
      bind, Except.bind, universal_truncated valid]
    rfl
  · have valid' : (received t).isValid = true := by
      have truncated := Timestamp.is_valid_iff.mp (Timestamp.truncated_valid valid)
      exact Timestamp.is_valid_iff.mpr ⟨truncated.1, truncated.2.1, rfl⟩
    have same : universal (received t) = .ok (received t) := by
      rw [universal_ok, Timestamp.universal_self valid' rfl]
      rfl
    simp only [encodeScalar, pure, Except.pure, bind, Except.bind, same, received_text]

theorem lowered_lowered (text : String) : lowered (lowered text) = lowered text := by
  have twice : ∀ c : Char, c.toLower.toLower = c.toLower := by
    intro c
    by_cases small : c.toNat < 128
    · exact Text.of_ascii c small (by decide +kernel)
    · have same := lowered_of_large (show 128 ≤ c.toNat by omega)
      rw [same, same]
  simp [lowered, Function.comp_def, twice]

theorem shared_form_stable [urls : UrlNormaliser] {s : Scalar} {form : Value}
    (stable : urls.Stable) (shared : sharedForm? s value = some form) : sharedForm? s form = some form := by
  cases s with
  | json => exact json_form_stable shared
  | void =>
    cases shared
    rfl
  | int | uint =>
    obtain ⟨n, whole, within⟩ := Option.bind_eq_some_iff.mp shared
    split at within
    · next range =>
      cases within
      exact Option.bind_eq_some_iff.mpr ⟨n, whole, if_pos range⟩
    · cases within
  | money =>
    obtain ⟨n, whole, rfl⟩ := Option.map_eq_some_iff.mp shared
    exact Option.map_eq_some_iff.mpr ⟨n, whole, rfl⟩
  | hex =>
    cases value with
    | string text =>
      obtain ⟨hex, same⟩ := Option.ite_none_right_eq_some.mp shared
      cases same
      have still : isHex (lowered text).toList = true := by
        simpa [lowered] using is_hex_lowered hex
      change (if isHex (lowered text).toList = true then _ else none) = _
      rw [if_pos still, lowered_lowered]
    | _ => cases shared
  | uuid =>
    cases value with
    | string text =>
      obtain ⟨uuid, same⟩ := Option.ite_none_right_eq_some.mp shared
      cases same
      have still : isUuid (lowered text).toList = true := by
        simpa [lowered] using is_uuid_lowered uuid
      change (if isUuid (lowered text).toList = true then _ else none) = _
      rw [if_pos still, lowered_lowered]
    | _ => cases shared
  | base64 =>
    cases value with
    | string text =>
      obtain ⟨content, decoded, rfl⟩ := Option.map_eq_some_iff.mp shared
      exact Option.map_eq_some_iff.mpr ⟨content, decoded, rfl⟩
    | _ => cases shared
  | url =>
    cases value with
    | string text =>
      obtain ⟨url, normal, rfl⟩ := Option.map_eq_some_iff.mp shared
      exact Option.map_eq_some_iff.mpr ⟨url, stable text url normal, rfl⟩
    | _ => cases shared
  | text | bool | float =>
    cases value <;> cases shared <;> rfl
  | bytes | bigint | decimal | date | datetime => cases shared

theorem shared_form [urls : UrlNormaliser] {s : Scalar} (stable : urls.Stable)
    (decoded : ∀ path name, decodeScalar path name s sent =
      orMismatch path name sent (sharedForm? s sent))
    (encoded : ∀ path name, encodeScalar path name s sent =
      orMismatch path name sent (sharedForm? s sent))
    (shared : sharedForm? s value = some sent) : FormOf s sent sent := by
  have again := shared_form_stable stable shared
  exact ⟨fun path name => by rw [decoded, again]; rfl, fun path name => by rw [encoded, again]; rfl⟩

theorem decimal_of_finite {d : Decimal} (found : decimalOf? value = some d) : d.isFinite = true := by
  cases value with
  | int n =>
    cases found
    rfl
  | float x =>
    cases x with
    | finite =>
      cases found
      exact Decimal.of_numeral_finite _
    | _ => cases found
  | string text =>
    obtain ⟨_, same⟩ := Option.ite_none_right_eq_some.mp found
    cases same
    exact Decimal.of_numeral_finite _
  | _ => cases found

theorem date_of_valid {d : Date} (dated : value.isDated = true) (found : dateOf? value = some d) :
    d.isValid = true := by
  cases value with
  | timestamp t =>
    cases found
    exact (Timestamp.is_valid_iff.mp dated).1
  | date e =>
    cases found
    exact dated
  | string text => exact Date.valid_of_text found
  | _ => cases found

def momentOf? : Value → Option Timestamp
  | .timestamp t => some t
  | value => timestampOf? value

theorem moment_of_valid {t : Timestamp} (dated : value.isDated = true)
    (found : momentOf? value = some t) : t.isValid = true := by
  cases value with
  | timestamp t =>
    cases found
    exact dated
  | string text => exact Timestamp.valid_of_text found
  | _ => cases found

theorem encode_datetime [UrlNormaliser] : encodeScalar path name .datetime value =
    (orMismatch path name value (momentOf? value) >>= fun t =>
      universal t >>= fun u => .ok (.string u.millisecondText)) := by
  cases value <;> rfl

theorem rewritten_of_encode [urls : UrlNormaliser] {s : Scalar} (dated : value.isDated = true)
    (stable : urls.Stable) (encoded : encodeScalar path name s value = .ok sent) :
    Rewritten s sent := by
  cases s with
  | bytes =>
    cases value with
    | bytes content | buffer content =>
      cases encoded
      exact ⟨_, bytes_form content⟩
    | _ => exact absurd encoded mismatch_ne_ok
  | bigint =>
    cases value with
    | int n =>
      simp only [encodeScalar] at encoded
      split at encoded
      · next text written =>
        cases encoded
        exact ⟨_, bigint_form written⟩
      · cases encoded
    | _ => exact absurd encoded mismatch_ne_ok
  | decimal =>
    simp only [encodeScalar] at encoded
    split at encoded
    · split at encoded
      · next finite =>
        cases encoded
        exact ⟨_, decimal_form finite⟩
      · exact absurd encoded mismatch_ne_ok
    · split at encoded
      · cases encoded
      · cases encoded
        exact ⟨_, decimal_form rfl⟩
    · obtain ⟨d, found, written⟩ := bind_ok_iff.mp encoded
      cases written
      exact ⟨_, decimal_form (decimal_of_finite (or_mismatch_ok.mp found))⟩
  | date =>
    obtain ⟨d, found, written⟩ := bind_ok_iff.mp encoded
    cases written
    exact ⟨_, date_form (date_of_valid dated (or_mismatch_ok.mp found))⟩
  | datetime =>
    rw [encode_datetime] at encoded
    obtain ⟨t, found, written⟩ := bind_ok_iff.mp encoded
    obtain ⟨u, moved, written⟩ := bind_ok_iff.mp written
    cases written
    have valid := moment_of_valid dated (or_mismatch_ok.mp found)
    exact ⟨_, datetime_form (Timestamp.universal_valid valid (universal_ok.mp moved)).1⟩
  | void =>
    cases encoded
    exact ⟨.null, fun _ _ => rfl, fun _ _ => rfl⟩
  | _ =>
    exact ⟨sent, shared_form stable (fun _ _ => rfl) (fun _ _ => rfl) (or_mismatch_ok.mp encoded)⟩

theorem null_of_shared [UrlNormaliser] {s : Scalar} (shared : sharedForm? s value = some .null) :
    s = .void ∨ value = .null := by
  cases s with
  | void => exact .inl rfl
  | json => exact .inr (null_of_json_form shared)
  | int | uint =>
    obtain ⟨n, whole, within⟩ := Option.bind_eq_some_iff.mp shared
    split at within
    · cases within
      cases whole
    · cases within
  | money =>
    obtain ⟨n, whole, rfl⟩ := Option.map_eq_some_iff.mp shared
    exact .inr rfl
  | hex | uuid =>
    cases value with
    | string text =>
      obtain ⟨_, same⟩ := Option.ite_none_right_eq_some.mp shared
      cases same
    | _ => cases shared
  | base64 | url =>
    cases value with
    | string text =>
      obtain ⟨_, _, same⟩ := Option.map_eq_some_iff.mp shared
      cases same
    | _ => cases shared
  | text | bool | float => cases value <;> cases shared
  | bytes | bigint | decimal | date | datetime => cases shared

theorem null_of_encode [UrlNormaliser] {s : Scalar}
    (encoded : encodeScalar path name s value = .ok .null) :
    s = .void ∨ value = .null := by
  cases s with
  | void => exact .inl rfl
  | bytes =>
    cases value with
    | bytes | buffer => cases encoded
    | _ => exact absurd encoded mismatch_ne_ok
  | bigint =>
    cases value with
    | int n =>
      simp only [encodeScalar] at encoded
      split at encoded <;> cases encoded
    | _ => exact absurd encoded mismatch_ne_ok
  | decimal =>
    simp only [encodeScalar] at encoded
    split at encoded
    · split at encoded
      · cases encoded
      · exact absurd encoded mismatch_ne_ok
    · split at encoded <;> cases encoded
    · obtain ⟨d, _, written⟩ := bind_ok_iff.mp encoded
      cases written
  | date =>
    obtain ⟨d, _, written⟩ := bind_ok_iff.mp encoded
    cases written
  | datetime =>
    rw [encode_datetime] at encoded
    obtain ⟨t, _, written⟩ := bind_ok_iff.mp encoded
    obtain ⟨u, _, written⟩ := bind_ok_iff.mp written
    cases written
  | _ => exact null_of_shared (or_mismatch_ok.mp encoded)

theorem null_of_decode [UrlNormaliser] {s : Scalar}
    (decoded : decodeScalar path name s value = .ok .null) :
    s = .void ∨ value = .null := by
  cases s with
  | void => exact .inl rfl
  | bytes =>
    cases value with
    | string text =>
      obtain ⟨_, _, same⟩ := bind_ok_iff.mp decoded
      cases same
    | _ => exact absurd decoded mismatch_ne_ok
  | bigint =>
    simp only [decodeScalar] at decoded
    split at decoded
    · split at decoded
      · exact absurd decoded mismatch_ne_ok
      · split at decoded
        · cases decoded
        · split at decoded <;> cases decoded
    · obtain ⟨_, _, same⟩ := bind_ok_iff.mp decoded
      cases same
  | decimal =>
    simp only [decodeScalar] at decoded
    split at decoded
    · split at decoded <;> cases decoded
    · obtain ⟨_, _, same⟩ := bind_ok_iff.mp decoded
      cases same
  | date =>
    obtain ⟨_, _, same⟩ := bind_ok_iff.mp decoded
    cases same
  | datetime =>
    obtain ⟨_, _, moved⟩ := bind_ok_iff.mp decoded
    obtain ⟨_, _, same⟩ := bind_ok_iff.mp moved
    cases same
  | _ => exact null_of_shared (or_mismatch_ok.mp decoded)

end Forms

end Codec

end ApiSchema
