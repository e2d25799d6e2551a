import ApiSchema.Json.Reader
import ApiSchema.Proofs.Number.Shortest
import Mathlib.Data.List.TakeWhile

/-! Numerals are read up to their ends. -/

namespace ApiSchema.Json

def endsNumber (c : Char) : Bool := !isDigit c && c != '.' && c != 'e' && c != 'E'

/-- What may stand behind a number. -/
def Ends (rest : List Char) : Prop := ∀ c, rest.head? = some c → endsNumber c = true

theorem Ends.nil : Ends [] := nofun

theorem Ends.cons {c : Char} {rest : List Char} (ends : endsNumber c = true) : Ends (c :: rest) := by
  intro d same
  cases same
  exact ends

def Undigited (rest : List Char) : Prop := ∀ c, rest.head? = some c → isDigit c = false

theorem Ends.undigited {rest : List Char} (ends : Ends rest) : Undigited rest := by
  intro c first
  have all := ends c first
  simp only [endsNumber, Bool.and_eq_true, Bool.not_eq_true'] at all
  exact all.1.1.1

theorem Undigited.cons {c : Char} {rest : List Char} (other : isDigit c = false) :
    Undigited (c :: rest) := by
  intro d same
  cases same
  exact other

section Digits

variable {digits rest : List Char}

theorem take_digits (all : digits.all isDigit = true) (stop : Undigited rest) :
    (digits ++ rest).takeWhile isDigit = digits := by
  rw [List.takeWhile_append_of_pos (List.all_eq_true.mp all)]
  cases rest with
  | nil => simp
  | cons c rest => rw [List.takeWhile_cons_of_neg (by simp [stop c rfl]), List.append_nil]

theorem drop_digits (all : digits.all isDigit = true) (stop : Undigited rest) :
    (digits ++ rest).dropWhile isDigit = rest := by
  rw [List.dropWhile_append_of_pos (List.all_eq_true.mp all)]
  cases rest with
  | nil => rfl
  | cons c rest => rw [List.dropWhile_cons_of_neg (by simp [stop c rfl])]

theorem read_whole (whole : Whole digits) (stop : Undigited rest) :
    readWhole (digits ++ rest) = (digits, rest) := by
  rcases whole.front with rfl | front
  · rfl
  · have first : ∀ others, digits ++ rest ≠ '0' :: others := by
      intro others zero
      apply front
      have kept : (digits ++ rest).head? = digits.head? :=
        List.head?_append_of_ne_nil _ whole.present
      rw [← kept, zero]
      rfl
    rw [readWhole, take_digits whole.all stop, drop_digits whole.all stop]
    exact fun others => first others

theorem read_fraction (present : digits ≠ []) (all : digits.all isDigit = true)
    (stop : Undigited rest) : readFraction ('.' :: (digits ++ rest)) = (digits, rest) := by
  rw [readFraction, take_digits all stop, drop_digits all stop, if_neg]
  simpa using present

theorem read_no_fraction (stop : rest.head? ≠ some '.') : readFraction rest = ([], rest) := by
  cases rest with
  | nil => rfl
  | cons c rest =>
    rw [readFraction]
    rintro others same
    cases same
    exact stop rfl

theorem read_exponent (negative : Bool) (present : digits ≠ []) (all : digits.all isDigit = true)
    (stop : Undigited rest) :
    readExponent ('e' :: (if negative then '-' else '+') :: (digits ++ rest)) =
      (some (signedDigits negative digits), rest) := by
  cases negative with
  | true =>
    simp [readExponent, signedDigits, take_digits all stop, drop_digits all stop, present]
  | false =>
    simp [readExponent, signedDigits, take_digits all stop, drop_digits all stop, present]

theorem read_no_exponent (ends : Ends rest) : readExponent rest = (none, rest) := by
  cases rest with
  | nil => rfl
  | cons c rest =>
    have stop := ends c rfl
    simp only [endsNumber, Bool.and_eq_true, bne_iff_ne] at stop
    have other : ¬(c = 'e' ∨ c = 'E') := by
      rintro (same | same)
      · exact stop.1.2 same
      · exact stop.2 same
    exact if_neg other

theorem Ends.pointless (ends : Ends rest) : rest.head? ≠ some '.' := by
  intro point
  have stop := ends '.' point
  cases stop

theorem read_number_whole (whole : Whole digits) (short : exceedsDigitLimit digits.length = false)
    (ends : Ends rest) (negative : Bool) : readNumber negative (digits ++ rest) =
      some (.int (if negative then -(digitsValue digits : Int) else digitsValue digits), rest) := by
  unfold readNumber
  rw [read_whole whole ends.undigited]
  simp [whole.present, read_no_fraction ends.pointless, read_no_exponent ends, short]

theorem read_number_scaled {body : List Char} {c : Nat} {k : Int} (scaled : Scaled body c k)
    (ends : Ends rest) (negative : Bool) :
    readNumber negative (body ++ rest) = some (.float (Binary64.ofDecimal negative c k), rest) := by
  unfold readNumber
  cases scaled with
  | @point whole fraction front present all =>
    simp only [List.append_assoc, List.cons_append]
    rw [read_whole front (.cons rfl), read_fraction present all ends.undigited,
      read_no_exponent ends]
    simp [front.present, present]
  | @exponent whole places front mark present all =>
    simp only [List.append_assoc, List.cons_append]
    rw [read_whole front (.cons rfl), read_no_fraction (by simp),
      read_exponent mark present all ends.undigited]
    simp [front.present]
  | @both whole fraction places front present all mark present' all' =>
    simp only [List.append_assoc, List.cons_append]
    rw [read_whole front (.cons rfl), read_fraction present all (.cons rfl),
      read_exponent mark present' all' ends.undigited]
    simp [front.present]

end Digits

end ApiSchema.Json
