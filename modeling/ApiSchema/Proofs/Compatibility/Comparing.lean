import ApiSchema.Proofs.Compatibility.Fitting

/-! A comparison that reports nothing has found its types to fit, and its bound is large enough for
it to come to its end. -/

namespace ApiSchema.Transfer

open Schema

variable {x : Transfer} {met : List Meeting} {f : Findings}

theorem fits_of_sent_stands {sent subject received : TypeUse} (stands : x.sender.Stands sent subject)
    (fits : x.Fits met subject received) : x.Fits met sent received := by
  induction stands with
  | self => exact fits
  | reference defined _ ih => exact .sentName defined (ih fits)

theorem fits_of_received_stands {sent received subject : TypeUse}
    (stands : x.receiver.Stands received subject) (fits : x.Fits met sent subject) :
    x.Fits met sent received := by
  induction stands with
  | self => exact fits
  | reference defined _ ih => exact .receivedName defined (ih fits)

def span (x : Transfer) : Nat := x.sender.suffixCount + x.receiver.suffixCount

/-- A comparison finds types to fit if `n` exceeds the steps to their end, between which all
possible meetings may take place. -/
def Compares (x : Transfer) (met : List Meeting) (n : Nat) (compare : Comparison) : Prop :=
  ∀ f path sent received ds es, x.sender.Known sent.base → x.receiver.Known received.base →
    x.sender.Trail sent.base ds → x.receiver.Trail received.base es →
    x.room f * (x.span + 1) + suffixesAhead sent ds + suffixesAhead received es < n →
      Establishes met (x.Joins met) f (compare f path sent received) (x.Fits met sent received)

section Steps

variable {n : Nat} {compare : Comparison}

theorem compare_written (compares : x.Compares met n compare) (sender : x.sender.Navigable)
    (receiver : x.receiver.Navigable) {sent received : TypeUse} (known : x.sender.Known sent.base)
    (known' : x.receiver.Known received.base) (written : x.sender.Written sent)
    (written' : x.receiver.Written received) (path : String)
    (enough : x.room f * (x.span + 1) + x.span < n) :
    Establishes met (x.Joins met) f (compare f path sent received) (x.Fits met sent received) := by
  obtain ⟨ds, trail⟩ := sender.trails known
  obtain ⟨es, trail'⟩ := receiver.trails known'
  have ahead := ahead_le_count written trail
  have ahead' := ahead_le_count written' trail'
  apply compares f path sent received ds es known known' trail trail'
  unfold span at *
  omega

theorem compare_field_fits (compares : x.Compares met n compare) (sender : x.sender.Navigable)
    (receiver : x.receiver.Navigable) {sent : List Field} {received : Field}
    (known : ∀ field ∈ sent, x.sender.Known field.type.base ∧ x.sender.Written field.type)
    (known' : x.receiver.Known received.type.base) (written' : x.receiver.Written received.type)
    (path : String)
    (enough : ∀ field ∈ sent, x.room f * (x.span + 1) + x.span < n) :
    Establishes met (x.Joins met) f (x.compareField compare path sent f received)
      (x.Fills met sent received) := by
  unfold compareField Fills
  dsimp only
  cases found : lastField? sent received.name with
  | some field =>
    have member := (mem_of_last_field found).1
    exact compare_written compares sender receiver (known field member).1 known'
      (known field member).2 written' _ (enough field member)
  | none =>
    dsimp only
    split
    · next admits => exact .still admits
    · exact .report _ _

theorem enough_of_meet {sent received : Option StructId} {g : Findings} {field other : Field}
    (free : ⟨x.direction, sent, received⟩ ∉ f.met)
    (grows : (f.meet ⟨x.direction, sent, received⟩).met ⊆ g.met)
    (held : field ∈ x.sender.dataFields sent) (member : other ∈ x.receiver.dataFields received)
    (enough : x.room f * (x.span + 1) ≤ n) : x.room g * (x.span + 1) + x.span < n := by
  have possible := mem_meetings (x := x) (inside_of_data_fields held) (inside_of_data_fields member)
  have less := room_meet possible free
  have rest := room_mono (x := x) grows
  have product : (x.room g + 1) * (x.span + 1) ≤ x.room f * (x.span + 1) :=
    Nat.mul_le_mul_right _ (by omega)
  rw [Nat.succ_mul] at product
  omega

theorem compare_structs_fits (compares : x.Compares met n compare) (sender : x.sender.Navigable)
    (receiver : x.receiver.Navigable) {sent received : Option StructId}
    (known : ∀ t ∈ sent, x.sender.Known (.struct t))
    (known' : ∀ t ∈ received, x.receiver.Known (.struct t)) (path : String)
    (enough : x.room f * (x.span + 1) ≤ n) :
    Establishes met (x.Joins met) f (x.compareStructs compare f path sent received)
      (⟨x.direction, sent, received⟩ ∈ met) := by
  unfold compareStructs
  dsimp only
  split
  · next again =>
    have member : ⟨x.direction, sent, received⟩ ∈ f.met := by simpa using again
    exact {
      grows := fun _ => id
      clean := id
      joins := fun _ _ _ => .inl
      holds := fun _ within => within member }
  · next new =>
    have free : ⟨x.direction, sent, received⟩ ∉ f.met := by simpa using new
    refine .meets (Establishes.foldl fun g grows received' member => ?_) fun filled =>
      ⟨rfl, filled⟩
    apply compare_field_fits compares sender receiver
      (fun field held => ⟨known_of_data_fields known held, written_of_data_fields held⟩)
      (known_of_data_fields known' member) (written_of_data_fields member)
    exact fun field held => enough_of_meet free grows held member enough

theorem compare_value_fits (compares : x.Compares met n compare) (sender : x.sender.Navigable)
    (receiver : x.receiver.Navigable) {received : List EnumValue} {sent : EnumValue}
    (known : ∀ t ∈ sent.data, x.sender.Known (.struct t))
    (known' : ∀ v ∈ received, ∀ t ∈ v.data, x.receiver.Known (.struct t)) (path : String)
    (enough : x.room f * (x.span + 1) ≤ n) :
    Establishes met (x.Joins met) f (x.compareValue compare path received f sent)
      (∃ w, lastValue? received sent.text = some w ∧ ⟨x.direction, sent.data, w.data⟩ ∈ met) := by
  unfold compareValue
  cases found : lastValue? received sent.text with
  | some w =>
    have member := (mem_of_last_value found).1
    exact (compare_structs_fits compares sender receiver known (known' w member) _ enough).mono
      fun meets => ⟨w, rfl, meets⟩
  | none => exact .report _ _

theorem compare_bases_fits (compares : x.Compares met n compare) (sender : x.sender.Navigable)
    (receiver : x.receiver.Navigable) {sent received : TypeBase} (known : x.sender.Known sent)
    (known' : x.receiver.Known received) (path : String)
    (enough : x.room f * (x.span + 1) ≤ n) :
    Establishes met (x.Joins met) f (x.compareBases compare f path sent received)
      (x.Fits met ⟨[], sent⟩ ⟨[], received⟩) := by
  unfold compareBases
  split
  · next t u =>
    refine (compare_structs_fits compares sender receiver ?_ ?_ path enough).mono .struct
    · rintro _ ⟨⟩
      exact known
    · rintro _ ⟨⟩
      exact known'
  · next e i =>
    refine (Establishes.foldl fun g grows v member => ?_).mono .enum
    have rest := Nat.mul_le_mul_right (x.span + 1) (room_mono (x := x) grows)
    apply compare_value_fits compares sender receiver
    · exact fun t data => known.reaches (.single (.value member data))
    · exact fun w member' t data => known'.reaches (.single (.value member' data))
    · exact Nat.le_trans rest enough
  · next k l =>
    split
    · next allowed =>
      refine .still (.primitive ?_)
      simpa using allowed
    · exact .report _ _
  · next structs enums primitives =>
    split
    · next widens =>
      refine .still ?_
      unfold Schema.widens at widens
      split at widens
      · next e =>
        refine .text fun v member => ?_
        have bare := List.all_eq_true.mp widens v member
        simpa using bare
      · next k l => exact absurd rfl (primitives k l rfl)
      · cases widens
    · exact .report _ _

theorem compare_step_fits (compares : x.Compares met n compare) (sender : x.sender.Navigable)
    (receiver : x.receiver.Navigable) : x.Compares met (n + 1) (x.compareStep compare) := by
  intro f path sent received ds es known known' trail trail' enough
  obtain ⟨stands, other⟩ := stands_subject sender.resolved known
  obtain ⟨stands', other'⟩ := stands_subject receiver.resolved known'
  obtain ⟨ds', further, same⟩ := stands.trail trail
  obtain ⟨es', further', same'⟩ := stands'.trail trail'
  rw [← same, ← same'] at enough
  have behind := stands.known known
  have behind' := stands'.known known'
  refine Establishes.mono (p := x.Fits met (x.sender.subject sent) (x.receiver.subject received)) ?_
    fun fits => fits_of_sent_stands stands (fits_of_received_stands stands' fits)
  unfold compareStep
  dsimp only
  generalize x.sender.subject sent = S at *
  generalize x.receiver.subject received = R at *
  obtain ⟨suffixes, base⟩ := S
  obtain ⟨suffixes', base'⟩ := R
  simp only [suffixesAhead] at enough
  dsimp only
  have next : ∀ g path rest rest', x.room g ≤ x.room f →
      rest.length + rest'.length < suffixes.length + suffixes'.length →
      Establishes met (x.Joins met) g (compare g path ⟨rest, base⟩ ⟨rest', base'⟩)
        (x.Fits met ⟨rest, base⟩ ⟨rest', base'⟩) := by
    intro g path rest rest' less shorter
    have smaller := Nat.mul_le_mul_right (x.span + 1) less
    apply compares g path ⟨rest, base⟩ ⟨rest', base'⟩ ds' es' behind behind' further further'
    simp only [suffixesAhead]
    omega
  split
  · next rest rest' =>
    exact (next f path rest rest' (Nat.le_refl _) (by simp; omega)).mono .optional
  · next rest' _ =>
    exact (next f path suffixes rest' (Nat.le_refl _) (by simp)).mono .admitted
  · next rest _ =>
    exact .reported _ _ (next (f.report path x.unexpectedNull) path rest suffixes' (Nat.le_refl _)
      (by simp))
  · next rest rest' =>
    exact (next f (path ++ "[]") rest rest' (Nat.le_refl _) (by simp; omega)).mono .array
  · refine compare_bases_fits compares sender receiver behind behind' path ?_
    simp only [List.length_nil] at enough
    omega
  · exact .report _ _

end Steps

theorem compare_within_fits (sender : x.sender.Navigable) (receiver : x.receiver.Navigable)
    (n : Nat) : x.Compares met n (x.compareWithin n) := by
  induction n with
  | zero => intro f path sent received ds es _ _ _ _ enough; cases enough
  | succ n ih => exact compare_step_fits ih sender receiver

/-- The bound leaves room for all meetings, with all suffixes between two of them. -/
theorem enough_bound (x : Transfer) (f : Findings) :
    x.room f * (x.span + 1) + x.span < x.bound := by
  have fits := Nat.mul_le_mul_right (x.span + 1) (x.room_le f)
  have whole : x.bound =
      (x.sender.structs.size + 1) * (x.receiver.structs.size + 1) * (x.span + 1) + (x.span + 1) := by
    rw [bound, span, Nat.succ_mul]
  omega

theorem compare_fits (sender : x.sender.Navigable) (receiver : x.receiver.Navigable)
    {sent received : TypeUse} (known : x.sender.Known sent.base)
    (known' : x.receiver.Known received.base) (written : x.sender.Written sent)
    (written' : x.receiver.Written received) (path : String) :
    Establishes met (x.Joins met) f (x.compare f path sent received) (x.Fits met sent received) := by
  apply compare_written (compare_within_fits sender receiver x.bound) sender receiver known known'
    written written' path
  exact x.enough_bound f

end ApiSchema.Transfer

/-! What it says of two versions of a schema that no issue is found between them. -/

namespace ApiSchema.Compatibility

open Schema

def toServer (old new : Schema) : Transfer := ⟨.toServer, old, new⟩

def toClient (old new : Schema) : Transfer := ⟨.toClient, new, old⟩

def findings (old new : Schema) : Findings :=
  old.errors.foldl (compareError old new) (old.operations.foldl (compareOperation old new) {})

theorem issues_eq (old new : Schema) : issues old new = (findings old new).issues := rfl

def successor? (new : Schema) (o : Operation) : Option Operation :=
  new.operations.reverse.find? (·.name == o.name)

def laterError? (new : Schema) (e : ErrorKind) : Option ErrorKind :=
  new.errors.reverse.find? (·.name == e.name)

def Joined (old new : Schema) (met : List Meeting) (m : Meeting) : Prop :=
  (toServer old new).Joins met m ∨ (toClient old new).Joins met m

def OperationFits (old new : Schema) (met : List Meeting) (o : Operation) : Prop :=
  ∃ p, successor? new o = some p ∧ (toClient old new).Fits met p.returns o.returns ∧
    ∀ f ∈ p.args.map new.field, (toServer old new).Fills met (o.args.map old.field) f

def ErrorFits (old new : Schema) (met : List Meeting) (e : ErrorKind) : Prop :=
  ∀ later, laterError? new e = some later → (toClient old new).Fits met later.data e.data

/-- Everything that may be sent between two versions fits. -/
structure Agrees (old new : Schema) (met : List Meeting) : Prop where
  structs : ∀ m ∈ met, Joined old new met m
  operations : ∀ o ∈ old.operations, OperationFits old new met o
  errors : ∀ e ∈ old.errors, ErrorFits old new met e

variable {old new : Schema} {met : List Meeting} {f : Findings}

theorem Agrees.closed (agrees : Agrees old new met) :
    (toServer old new).Closed met ∧ (toClient old new).Closed met := by
  constructor
  · intro t u member
    rcases agrees.structs _ member with joins | joins
    · exact joins.2
    · cases joins.1
  · intro t u member
    rcases agrees.structs _ member with joins | joins
    · cases joins.1
    · exact joins.2

theorem mem_of_successor {o p : Operation} (found : successor? new o = some p) :
    p ∈ new.operations ∧ p.name = o.name := by
  have named := List.find?_some found
  exact ⟨List.mem_reverse.mp (List.mem_of_find?_eq_some found), by simpa using named⟩

theorem mem_of_later_error {e later : ErrorKind} (found : laterError? new e = some later) :
    later ∈ new.errors ∧ later.name = e.name := by
  have named := List.find?_some found
  exact ⟨List.mem_reverse.mp (List.mem_of_find?_eq_some found), by simpa using named⟩

theorem compare_argument_fits (older : old.Navigable) (newer : new.Navigable) {o p : Operation}
    (member : o ∈ old.operations) (member' : p ∈ new.operations) {id : FieldId}
    (held : id ∈ p.args) :
    Establishes met (Joined old new met) f (compareArgument old new o f (new.field id))
      ((toServer old new).Fills met (o.args.map old.field) (new.field id)) := by
  refine Establishes.weaken ?_ fun _ => Or.inl
  unfold compareArgument Transfer.compareField Transfer.Fills
  dsimp only
  have known' : new.Known (new.field id).type.base :=
    known_of_declares (.argument member' (.inr held))
  cases found : lastField? (o.args.map old.field) (new.field id).name with
  | some field =>
    obtain ⟨arg, given, rfl⟩ := List.mem_map.mp (mem_of_last_field found).1
    exact Transfer.compare_fits (x := toServer old new) older newer
      (known_of_declares (.argument member (.inr given))) known' (.field arg) (.field id) _
  | none =>
    dsimp only
    split
    · next admits => exact .still admits
    · exact .report _ _

theorem compare_operation_fits (older : old.Navigable) (newer : new.Navigable) {o : Operation}
    (member : o ∈ old.operations) :
    Establishes met (Joined old new met) f (compareOperation old new f o)
      (OperationFits old new met o) := by
  unfold compareOperation
  cases found : new.operations.reverse.find? (·.name == o.name) with
  | none => exact .report _ _
  | some p =>
    have member' := (mem_of_successor found).1
    dsimp only
    have returned : Establishes met (Joined old new met) f
        ((toClient old new).compare f s!"{o.name}.ret" p.returns o.returns)
        ((toClient old new).Fits met p.returns o.returns) :=
      (Transfer.compare_fits newer older (known_of_declares (.returns member'))
        (known_of_declares (.returns member)) (.returns member') (.returns member) _).weaken
          fun _ => Or.inr
    have arguments : ∀ g, Establishes met (Joined old new met) g
        ((p.args.map new.field).foldl (compareArgument old new o) g)
        (∀ field ∈ p.args.map new.field,
          (toServer old new).Fills met (o.args.map old.field) field) := by
      intro g
      apply Establishes.foldl
      intro g _ field held
      obtain ⟨id, given, rfl⟩ := List.mem_map.mp held
      exact compare_argument_fits older newer member member' given
    exact (returned.andThen (arguments _)).mono fun ⟨fits, filled⟩ => ⟨p, found, fits, filled⟩

theorem compare_error_fits (older : old.Navigable) (newer : new.Navigable) {e : ErrorKind}
    (member : e ∈ old.errors) :
    Establishes met (Joined old new met) f (compareError old new f e) (ErrorFits old new met e) := by
  unfold compareError
  cases found : new.errors.reverse.find? (·.name == e.name) with
  | none =>
    refine .still fun later present => ?_
    rw [laterError?, found] at present
    cases present
  | some later =>
    have member' := (mem_of_later_error found).1
    have compared : Establishes met ((toClient old new).Joins met) f
        ((toClient old new).compare f s!"{e.name}.data" later.data e.data)
        ((toClient old new).Fits met later.data e.data) :=
      Transfer.compare_fits newer older (known_of_declares (.error member'))
        (known_of_declares (.error member)) (.data member') (.data member) _
    refine (compared.weaken fun _ => Or.inr).mono fun fits other present => ?_
    rw [laterError?, found] at present
    cases present
    exact fits

theorem agrees_of_issues (older : old.Navigable) (newer : new.Navigable)
    (none : issues old new = []) : Agrees old new (findings old new).met := by
  have operations : Establishes (findings old new).met (Joined old new (findings old new).met) {}
      (old.operations.foldl (compareOperation old new) {})
      (∀ o ∈ old.operations, OperationFits old new (findings old new).met o) :=
    .foldl fun g _ o member => compare_operation_fits older newer member
  have errors : Establishes (findings old new).met (Joined old new (findings old new).met)
      (old.operations.foldl (compareOperation old new) {}) (findings old new)
      (∀ e ∈ old.errors, ErrorFits old new (findings old new).met e) :=
    .foldl fun g _ e member => compare_error_fits older newer member
  have whole := operations.andThen errors
  have within : (findings old new).met ⊆ (findings old new).met := fun _ => id
  obtain ⟨fits, fit⟩ := whole.holds none within
  refine ⟨fun m member => ?_, fits, fit⟩
  rcases whole.joins none within m member with start | joined
  · cases start
  · exact joined

end ApiSchema.Compatibility
