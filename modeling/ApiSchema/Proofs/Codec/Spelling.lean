import ApiSchema.Proofs.Calendar.Instant
import ApiSchema.Proofs.Codec.Description
import ApiSchema.Proofs.Codec.Scalars

/-! Texts that are taken for bytes and for times, what they are taken for, and how all others are
refused. -/

namespace ApiSchema.Codec

section Texts

variable {path expected text : String}

theorem mismatch_text {α : Type} : (mismatch path expected (.string text) : Result α) =
    .error (.error (.mismatch path expected (Json.stringText text))) := by
  simp [mismatch, described, Value.described?, Json.write?]
  rfl

theorem base64_text_iff {content : List UInt8} : Base64.decode? text.toList = some content ↔
    text = String.ofList (Base64.encode content) := by
  rw [Base64.decode_iff, ← String.toList_inj, String.toList_ofList]

theorem decode_bytes_iff [UrlNormaliser] {table : TypeTable} {taken : Value} :
    decode table path (.string "bytes") (.string text) = .ok taken ↔
      ∃ content, text = String.ofList (Base64.encode content) ∧ taken = .bytes content := by
  have scalar : decode table path (.string "bytes") (.string text) =
      orMismatch path "bytes (base 64)" (.string text) (Base64.decode? text.toList) >>=
        fun content => .ok (.bytes content) := convert_present .bytes nofun
  rw [scalar]
  simp only [bind_ok_iff, or_mismatch_ok, base64_text_iff, Except.ok.injEq, @eq_comm _ taken]

theorem decode_base64_iff [UrlNormaliser] {table : TypeTable} {taken : Value} :
    decode table path (.string "base64") (.string text) = .ok taken ↔
      (∃ content, text = String.ofList (Base64.encode content)) ∧ taken = .string text := by
  have scalar : decode table path (.string "base64") (.string text) =
      orMismatch path "base64" (.string text)
        ((Base64.decode? text.toList).map fun _ => .string text) :=
    convert_present .base64 nofun
  rw [scalar]
  simp only [or_mismatch_ok, Option.map_eq_some_iff, base64_text_iff, exists_and_right,
    @eq_comm _ taken]

/-- The texts for bytes are those in base 64, each of them for bytes of its own. -/
theorem bytes_as_base64 [UrlNormaliser] (table : TypeTable) (path text : String) :
    ((∃ taken, decode table path (.string "bytes") (.string text) = .ok taken) ↔
        ∃ content, text = String.ofList (Base64.encode content)) ∧
      ((∃ taken, decode table path (.string "base64") (.string text) = .ok taken) ↔
        ∃ content, text = String.ofList (Base64.encode content)) ∧
      ∀ content, text = String.ofList (Base64.encode content) →
        decode table path (.string "bytes") (.string text) = .ok (.bytes content) ∧
          (∀ other, text = String.ofList (Base64.encode other) → other = content) ∧
            encode table path (.string "bytes") (.bytes content) = .ok (.string text) := by
  refine ⟨?_, ?_, ?_⟩
  · simp only [decode_bytes_iff]
    constructor
    · rintro ⟨_, content, written, _⟩
      exact ⟨content, written⟩
    · rintro ⟨content, written⟩
      exact ⟨_, content, written, rfl⟩
  · simp only [decode_base64_iff, exists_and_left, exists_eq, and_true]
  · rintro content rfl
    refine ⟨decode_bytes_iff.mpr ⟨content, rfl, rfl⟩, fun other same => ?_, ?_⟩
    · exact (Base64.encode_injective (String.ofList_injective same)).symm
    · exact convert_present .bytes nofun

theorem sure_as_base64 : ∃ _ : UrlNormaliser,
    "c3VyZQ==" = String.ofList (Base64.encode [115, 117, 114, 101]) ∧
    decode [] "seal" (.string "bytes") (.string "c3VyZQ==") = .ok (.bytes [115, 117, 114, 101]) ∧
      encode [] "seal" (.string "bytes") (.bytes [115, 117, 114, 101]) = .ok (.string "c3VyZQ==") := by
  have written : "c3VyZQ==" = String.ofList (Base64.encode [115, 117, 114, 101]) := by decide +kernel
  let urls : UrlNormaliser := .refusing
  obtain ⟨read, _, back⟩ := (bytes_as_base64 [] "seal" "c3VyZQ==").2.2 _ written
  exact ⟨urls, written, read, back⟩

theorem decode_datetime [UrlNormaliser] (table : TypeTable) (path text : String) :
    decode table path (.string "datetime") (.string text) =
      (match Timestamp.ofText? text.toList with
      | none => .error (.error (.mismatch path "datetime" (Json.stringText text)))
      | some t =>
        match t.toUniversal? with
        | none => .error .outsideCalendar
        | some u => .ok (.timestamp u)) := by
  have scalar : decode table path (.string "datetime") (.string text) =
      orMismatch path "datetime" (.string text) (Timestamp.ofText? text.toList) >>= fun t =>
        universal t >>= fun u => .ok (.timestamp u) := convert_present .datetime nofun
  rw [scalar]
  cases Timestamp.ofText? text.toList with
  | none =>
    rw [orMismatch, mismatch_text]
    rfl
  | some t =>
    change (universal t >>= fun u => Except.ok (Value.timestamp u)) = _
    dsimp only [universal]
    cases t.toUniversal? <;> rfl

open Timestamp in
/-- The texts for times are those that spell one, which is taken in universal time. Only a text whose
time leaves the calendar there fails in a way of its own. -/
theorem datetime_decoded [UrlNormaliser] (table : TypeTable) (path text : String) :
    ((∃ taken, decode table path (.string "datetime") (.string text) = .ok taken) ↔
        ∃ t, Spells CarryingOffset text t ∧ t.InCalendar) ∧
      (∀ taken, decode table path (.string "datetime") (.string text) = .ok taken →
        ∃ t u, Spells CarryingOffset text t ∧ taken = .timestamp u ∧
          u.isValid = true ∧ u.offset = some 0 ∧ u.instant = t.instant) ∧
      (decode table path (.string "datetime") (.string text) = .error .outsideCalendar ↔
        ∃ t, Spells CarryingOffset text t ∧ ¬ t.InCalendar) ∧
      (decode table path (.string "datetime") (.string text) =
          .error (.error (.mismatch path "datetime" (Json.stringText text))) ↔
        ¬ ∃ t, Spells CarryingOffset text t) := by
  rw [decode_datetime]
  simp only [← of_text_iff]
  cases read : ofText? text.toList with
  | none => simp
  | some t =>
    have valid := valid_of_text read
    have within := universal_isSome_iff valid
    cases moved : t.toUniversal? with
    | none =>
      have outside : ¬ t.InCalendar := fun inside => by simpa [moved] using within.mpr inside
      simp [moved, outside]
    | some u =>
      have inside : t.InCalendar := within.mp (by rw [moved]; rfl)
      have same := (universal_iff valid).mp moved
      simp [moved, inside, same]

open Timestamp in
theorem leap_day_decoded : ∃ _ : UrlNormaliser,
    decode [] "at" (.string "datetime") (.string "2024-02-29T23:30:00.5-01:30") =
        .ok (.timestamp ⟨⟨2024, 3, 1⟩, 1, 0, 0, 500000, some 0⟩) ∧
      ∃ t, Spells CarryingOffset "2024-02-29T23:30:00.5-01:30" t ∧
        instant ⟨⟨2024, 3, 1⟩, 1, 0, 0, 500000, some 0⟩ = t.instant := by
  let urls : UrlNormaliser := .refusing
  have read : ofText? "2024-02-29T23:30:00.5-01:30".toList =
      some ⟨⟨2024, 2, 29⟩, 23, 30, 0, 500000, some (-5400)⟩ := by decide +kernel
  have taken : decode [] "at" (.string "datetime") (.string "2024-02-29T23:30:00.5-01:30") =
      .ok (.timestamp ⟨⟨2024, 3, 1⟩, 1, 0, 0, 500000, some 0⟩) := by
    rw [decode_datetime, read]
    rfl
  obtain ⟨t, u, spells, same, _, _, instant⟩ := (datetime_decoded [] "at" _).2.1 _ taken
  cases same
  exact ⟨urls, taken, t, spells, instant⟩

open Timestamp in
/-- Offsets with more minutes than an hour has are carried, and a time may leave the calendar. -/
theorem offset_carried : ∃ _ : UrlNormaliser,
    (¬ ∃ t, Spells ClockOffset "2024-01-01T00:00:00+00:60" t) ∧
      decode [] "at" (.string "datetime") (.string "2024-01-01T00:00:00+00:60") =
        .ok (.timestamp ⟨⟨2023, 12, 31⟩, 23, 0, 0, 0, some 0⟩) ∧
      decode [] "at" (.string "datetime") (.string "0001-01-01T00:00:00+01:00") =
        .error .outsideCalendar := by
  let urls : UrlNormaliser := .refusing
  have carried : ofText? "2024-01-01T00:00:00+00:60".toList =
      some ⟨⟨2024, 1, 1⟩, 0, 0, 0, 0, some 3600⟩ := by decide +kernel
  have early : ofText? "0001-01-01T00:00:00+01:00".toList =
      some ⟨⟨1, 1, 1⟩, 0, 0, 0, 0, some 3600⟩ := by decide +kernel
  refine ⟨urls, ?_, ?_, ?_⟩
  · rintro ⟨t, spells⟩
    have read := of_text_iff.mpr (spells.mono carrying_of_clock)
    obtain ⟨_, _, fraction, zone, _, place, written⟩ := spells
    cases carried.symm.trans read
    -- An hour ahead is written in one way only.
    have hour : zone.toList = "+01:00".toList := by
      generalize offset : some (3600 : Int) = seconds at place
      cases place with
      | unzoned => cases offset
      | universal => cases offset
      | @ahead hours minutes near =>
        obtain ⟨_, few⟩ := near
        have sum := Option.some.inj offset
        obtain ⟨rfl, rfl⟩ : hours = 1 ∧ minutes = 0 := by omega
        decide +kernel
      | behind =>
        have sum := Option.some.inj offset
        omega
    have last := congrArg (fun text => text.toList.reverse.take 2) written
    simp [hour] at last
  · rw [decode_datetime, carried]
    rfl
  · rw [decode_datetime, early]
    rfl

end Texts

end ApiSchema.Codec
