import ApiSchema.Base64

/-! Bytes are read back from their written form, which is the only text that they are read from. -/

namespace ApiSchema.Base64

theorem digit_value_digit {n : Nat} (small : n < 64) : digitValue? (digit n) = some n := by
  have all : ∀ m : Fin 64, digitValue? (digit m.val) = some m.val := by decide +kernel
  exact all ⟨n, small⟩

theorem digit_ne_fill {n : Nat} (small : n < 64) : digit n ≠ '=' := by
  have all : ∀ m : Fin 64, digit m.val ≠ '=' := by decide +kernel
  exact all ⟨n, small⟩

theorem byte_to_nat (a : UInt8) : byte a.toNat = a := UInt8.ofNat_toNat

variable {strict : Bool}

theorem read_digit {place : Place} {n : Nat} (small : n < 64) (clear : place.filled = false)
    (rest : List Char) : readFrom? strict place (digit n :: rest) =
      (readFrom? strict (place.meet n).2 rest).map ((place.meet n).1 ++ ·) := by
  rw [readFrom?, if_neg (digit_ne_fill small), digit_value_digit small]
  simp [clear]

theorem read_group {n : Nat} (small : n < 16777216) (rest : List Char) :
    readFrom? strict {} (digit (n / 262144) :: digit (n / 4096 % 64) :: digit (n / 64 % 64) ::
        digit (n % 64) :: rest) =
      (readFrom? strict {} rest).map
        ([byte (n / 65536), byte (n / 256 % 256), byte (n % 256)] ++ ·) := by
  have first : n / 262144 * 4 + n / 4096 % 64 / 16 = n / 65536 := by omega
  have second : n / 4096 % 64 % 16 * 16 + n / 64 % 64 / 4 = n / 256 % 256 := by omega
  have third : n / 64 % 64 % 4 * 64 + n % 64 = n % 256 := by omega
  rw [read_digit (by omega) rfl, read_digit (by omega) rfl, read_digit (by omega) rfl,
    read_digit (by omega) rfl]
  simp only [Place.meet, first, second, third, Option.map_map, Function.comp_def, List.nil_append,
    List.cons_append]

theorem read_two {n : Nat} (small : n < 65536) :
    readFrom? strict {} [digit (n / 1024), digit (n / 16 % 64), digit (n % 16 * 4), '='] =
      some [byte (n / 256), byte (n % 256)] := by
  have first : n / 1024 * 4 + n / 16 % 64 / 16 = n / 256 := by omega
  have second : n / 16 % 64 % 16 * 16 + n % 16 * 4 / 4 = n % 256 := by omega
  rw [read_digit (by omega) rfl, read_digit (by omega) rfl, read_digit (by omega) rfl]
  simp only [Place.meet, first, second]
  cases strict <;> rfl

theorem read_one {n : Nat} (small : n < 256) :
    readFrom? strict {} [digit (n / 4), digit (n % 4 * 16), '=', '='] = some [byte n] := by
  have whole : n / 4 * 4 + n % 4 * 16 / 16 = n := by omega
  rw [read_digit (by omega) rfl, read_digit (by omega) rfl]
  simp only [Place.meet, whole]
  cases strict <;> rfl

theorem read_encode (content : List UInt8) : readFrom? strict {} (encode content) = some content := by
  induction content using encode.induct with
  | case1 => rfl
  | case2 a =>
    simp only [encode, read_one a.toNat_lt, byte_to_nat]
  | case3 a b =>
    have small := a.toNat_lt
    have small' := b.toNat_lt
    simp only [encode]
    rw [read_two (by omega)]
    have first : (a.toNat * 256 + b.toNat) / 256 = a.toNat := by omega
    have second : (a.toNat * 256 + b.toNat) % 256 = b.toNat := by omega
    rw [first, second, byte_to_nat, byte_to_nat]
  | case4 a b c rest ih =>
    have small := a.toNat_lt
    have small' := b.toNat_lt
    have small'' := c.toNat_lt
    simp only [encode]
    rw [read_group (by omega), ih]
    generalize whole : (a.toNat * 256 + b.toNat) * 256 + c.toNat = n
    have first : n / 65536 = a.toNat := by omega
    have second : n / 256 % 256 = b.toNat := by omega
    have third : n % 256 = c.toNat := by omega
    rw [first, second, third, byte_to_nat, byte_to_nat, byte_to_nat]
    rfl

theorem head_encode (content : List UInt8) : (encode content).head? ≠ some '=' := by
  fun_cases encode content with
  | case1 => nofun
  | case2 a =>
    have small := a.toNat_lt
    simpa [encode] using digit_ne_fill (n := a.toNat / 4) (by omega)
  | case3 a b =>
    have small := a.toNat_lt
    have small' := b.toNat_lt
    simpa [encode] using digit_ne_fill (n := (a.toNat * 256 + b.toNat) / 1024) (by omega)
  | case4 a b c rest =>
    have small := a.toNat_lt
    have small' := b.toNat_lt
    have small'' := c.toNat_lt
    simpa [encode] using
      digit_ne_fill (n := ((a.toNat * 256 + b.toNat) * 256 + c.toNat) / 262144) (by omega)

theorem read?_encode (content : List UInt8) : read? strict (encode content) = some content := by
  rw [read?, if_neg (by simp [head_encode]), read_encode]

theorem is_written_iff {text : List Char} :
    isWritten text = true ↔ ∃ content, text = encode content := by
  simp only [isWritten, Option.any_eq_true, beq_iff_eq]
  constructor
  · rintro ⟨content, _, same⟩
    exact ⟨content, same.symm⟩
  · rintro ⟨content, rfl⟩
    exact ⟨content, read?_encode content, rfl⟩

theorem decode_iff {text : List Char} {content : List UInt8} :
    decode? text = some content ↔ text = encode content := by
  unfold decode?
  constructor
  · intro read
    split at read
    · next written =>
      obtain ⟨own, rfl⟩ := is_written_iff.mp written
      rw [read?_encode] at read
      cases read
      rfl
    · cases read
  · rintro rfl
    rw [if_pos (is_written_iff.mpr ⟨content, rfl⟩), read?_encode]

theorem decode_encode (content : List UInt8) : decode? (encode content) = some content :=
  decode_iff.mpr rfl

theorem encode_injective {content other : List UInt8} (same : encode content = encode other) :
    content = other := by
  have read := decode_encode content
  rw [same, decode_encode] at read
  exact (Option.some.inj read).symm

end ApiSchema.Base64
