import ApiSchema.Proofs.Analysis.Following
import ApiSchema.Proofs.Compatibility.Comparing

/-! Compatibility of types as the greatest relation that obeys the rules for types without their
names, and the comparison as a procedure for it: it always ends, and skipping the structs that have
met hides nothing. -/

namespace ApiSchema

namespace Transfer

open Schema

/-- A received field is sent by the field of its name, or may be missing. -/
def FillsWith (x : Transfer) (accepts : TypeUse → TypeUse → Prop) (sent : List Field)
    (received : Field) : Prop :=
  match lastField? sent received.name with
  | some f => accepts f.type received.type
  | none => x.receiver.admitsNull received.type = true

/-- The rules for a type that is sent and one that is received, neither of them a reference, given
which types inside of them are accepted. -/
inductive Rule (x : Transfer) (accepts : TypeUse → TypeUse → Prop) : TypeUse → TypeUse → Prop where
  | optional {rest base rest' base'} (inner : accepts ⟨rest, base⟩ ⟨rest', base'⟩) :
    Rule x accepts ⟨.optional :: rest, base⟩ ⟨.optional :: rest', base'⟩
  | admitted {sent rest base} (required : sent.isOptional = false)
    (inner : accepts sent ⟨rest, base⟩) : Rule x accepts sent ⟨.optional :: rest, base⟩
  | array {rest base rest' base'} (inner : accepts ⟨rest, base⟩ ⟨rest', base'⟩) :
    Rule x accepts ⟨.array :: rest, base⟩ ⟨.array :: rest', base'⟩
  | struct {t u} (fields : ∀ f ∈ x.receiver.dataFields (some u),
      x.FillsWith accepts (x.sender.dataFields (some t)) f) :
    Rule x accepts ⟨[], .struct t⟩ ⟨[], .struct u⟩
  | enum {e i} (values : ∀ v ∈ (x.sender.enum e).values,
      ∃ w, lastValue? (x.receiver.enum i).values v.text = some w ∧
        ∀ f ∈ x.receiver.dataFields w.data, x.FillsWith accepts (x.sender.dataFields v.data) f) :
    Rule x accepts ⟨[], .enum e⟩ ⟨[], .enum i⟩
  | same {k} : Rule x accepts ⟨[], .primitive k⟩ ⟨[], .primitive k⟩
  | wider {base base'} (widens : x.sender.widens base base' = true) :
    Rule x accepts ⟨[], base⟩ ⟨[], base'⟩

/-- A relation between types all of whose pairs obey the rules, once their names are resolved. -/
def Consistent (x : Transfer) (accepts : TypeUse → TypeUse → Prop) : Prop :=
  ∀ sent received, accepts sent received →
    x.Rule accepts (x.sender.subject sent) (x.receiver.subject received)

/-- The greatest consistent relation. -/
def Compatible (x : Transfer) (sent received : TypeUse) : Prop :=
  ∃ accepts, x.Consistent accepts ∧ accepts sent received

variable {x : Transfer} {accepts more : TypeUse → TypeUse → Prop}

theorem FillsWith.mono (weaker : ∀ s r, accepts s r → more s r) {sent : List Field} {received : Field}
    (fills : x.FillsWith accepts sent received) : x.FillsWith more sent received := by
  unfold FillsWith at *
  split at fills
  · exact weaker _ _ fills
  · exact fills

theorem Rule.mono (weaker : ∀ s r, accepts s r → more s r) {sent received : TypeUse}
    (rule : x.Rule accepts sent received) : x.Rule more sent received := by
  cases rule with
  | optional inner => exact .optional (weaker _ _ inner)
  | admitted required inner => exact .admitted required (weaker _ _ inner)
  | array inner => exact .array (weaker _ _ inner)
  | struct fields => exact .struct fun f member => (fields f member).mono weaker
  | enum values =>
    refine .enum fun v member => ?_
    obtain ⟨w, found, fields⟩ := values v member
    exact ⟨w, found, fun f member => (fields f member).mono weaker⟩
  | same => exact .same
  | wider widens => exact .wider widens

theorem consistent_compatible (x : Transfer) : x.Consistent x.Compatible := by
  rintro sent received ⟨accepts, consistent, accepted⟩
  exact (consistent sent received accepted).mono fun s r inner => ⟨accepts, consistent, inner⟩

theorem compatible_iff {sent received : TypeUse} :
    x.Compatible sent received ↔
      x.Rule x.Compatible (x.sender.subject sent) (x.receiver.subject received) := by
  constructor
  · exact consistent_compatible x sent received
  · intro rule
    refine ⟨fun s r => x.Rule x.Compatible (x.sender.subject s) (x.receiver.subject r), ?_, rule⟩
    exact fun s r rule => rule.mono fun s r => consistent_compatible x s r

section Silence

/-- A comparison that reports nothing about compatible types. -/
def Silent (x : Transfer) (compare : Comparison) : Prop :=
  ∀ f path sent received, x.Compatible sent received →
    (compare f path sent received).issues = f.issues

variable {compare : Comparison} {f : Findings}

theorem foldl_silent {α : Type} {step : Findings → α → Findings} {items : List α}
    (each : ∀ a ∈ items, ∀ g, (step g a).issues = g.issues) :
    (items.foldl step f).issues = f.issues := by
  induction items generalizing f with
  | nil => rfl
  | cons a rest ih =>
    rw [List.foldl_cons, ih fun b member => each b (List.mem_cons_of_mem _ member)]
    exact each a (List.mem_cons_self ..) f

theorem compare_field_silent (silent : x.Silent compare) {path : String} {sent : List Field}
    {received : Field} (fills : x.FillsWith x.Compatible sent received) :
    (x.compareField compare path sent f received).issues = f.issues := by
  unfold compareField FillsWith at *
  cases found : lastField? sent received.name with
  | some field =>
    simp only [found] at fills
    exact silent _ _ _ _ fills
  | none =>
    simp only [found] at fills
    simp only [fills, if_true]

theorem compare_structs_silent (silent : x.Silent compare) {path : String}
    {sent received : Option StructId}
    (fields : ∀ f ∈ x.receiver.dataFields received,
      x.FillsWith x.Compatible (x.sender.dataFields sent) f) :
    (x.compareStructs compare f path sent received).issues = f.issues := by
  unfold compareStructs
  dsimp only
  split
  · rfl
  · exact foldl_silent fun field member g => compare_field_silent silent (fields field member)

theorem compare_bases_silent (silent : x.Silent compare) {path : String} {sent received : TypeBase}
    (rule : x.Rule x.Compatible ⟨[], sent⟩ ⟨[], received⟩) :
    (x.compareBases compare f path sent received).issues = f.issues := by
  cases rule with
  | struct fields => exact compare_structs_silent silent fields
  | enum values =>
    refine foldl_silent fun v member g => ?_
    obtain ⟨w, found, fields⟩ := values v member
    rw [compareValue, found]
    exact compare_structs_silent silent fields
  | @same k => simp [compareBases]
  | wider widens =>
    cases sent <;> cases received <;> simp_all [compareBases, Schema.widens]

theorem compare_step_silent (silent : x.Silent compare) : x.Silent (x.compareStep compare) := by
  intro f path sent received compatible
  have rule := compatible_iff.mp compatible
  unfold compareStep
  dsimp only
  generalize x.sender.subject sent = S at rule ⊢
  generalize x.receiver.subject received = R at rule ⊢
  cases rule with
  | optional inner => exact silent _ _ _ _ inner
  | @admitted S rest base required inner =>
    obtain ⟨suffixes, base'⟩ := S
    cases suffixes with
    | nil => exact silent _ _ _ _ inner
    | cons suffix others =>
      cases suffix with
      | optional => cases required
      | array => exact silent _ _ _ _ inner
  | array inner => exact silent _ _ _ _ inner
  | struct fields => exact compare_bases_silent silent (.struct fields)
  | enum values => exact compare_bases_silent silent (.enum values)
  | same => exact compare_bases_silent silent .same
  | wider widens => exact compare_bases_silent silent (.wider widens)

theorem compare_within_silent (x : Transfer) (n : Nat) : x.Silent (x.compareWithin n) := by
  induction n with
  | zero => exact fun _ _ _ _ _ => rfl
  | succ n ih => exact compare_step_silent ih

end Silence

section Fitting

variable {met : List Meeting} {sent received : TypeUse}

theorem Fits.sent_defined (fits : x.Fits met sent received) {name : String} {location : Location}
    {d : Definition} (named : sent = ⟨[], .reference name location⟩)
    (defined : x.sender.definition? name = some d) : x.Fits met d.type received := by
  induction fits with
  | sentName defined' further _ =>
    cases named
    cases defined.symm.trans defined'
    exact further
  | receivedName defined' _ ih => exact .receivedName defined' (ih named)
  | admitted _ ih => exact .admitted (ih named)
  | _ => cases named

theorem Fits.received_defined (fits : x.Fits met sent received) {name : String} {location : Location}
    {d : Definition} (named : received = ⟨[], .reference name location⟩)
    (defined : x.receiver.definition? name = some d) : x.Fits met sent d.type := by
  induction fits with
  | sentName defined' _ ih => exact .sentName defined' (ih named)
  | receivedName defined' further _ =>
    cases named
    cases defined.symm.trans defined'
    exact further
  | _ => cases named

theorem Fits.resolved {sent' received' : TypeUse} (fits : x.Fits met sent received)
    (stands : x.sender.Stands sent sent') (stands' : x.receiver.Stands received received') :
    x.Fits met sent' received' := by
  induction stands with
  | self =>
    induction stands' with
    | self => exact fits
    | reference defined _ ih => exact ih (fits.received_defined rfl defined)
  | reference defined _ ih => exact ih (fits.sent_defined rfl defined)

theorem Fits.required (fits : x.Fits met sent received) {rest : List Suffix} {base : TypeBase}
    (optional : sent = ⟨.optional :: rest, base⟩) : x.Fits met ⟨rest, base⟩ received := by
  induction fits with
  | receivedName defined _ ih => exact .receivedName defined (ih optional)
  | admitted _ ih => exact .admitted (ih optional)
  | optional inner _ =>
    cases optional
    exact .admitted inner
  | _ => cases optional

def KnownFits (x : Transfer) (met : List Meeting) (sent received : TypeUse) : Prop :=
  x.sender.Known sent.base ∧ x.receiver.Known received.base ∧ x.Fits met sent received

theorem known_fills (closed : x.Closed met) {t u : Option StructId}
    (known : ∀ i ∈ t, x.sender.Known (.struct i)) (known' : ∀ i ∈ u, x.receiver.Known (.struct i))
    (meets : ⟨x.direction, t, u⟩ ∈ met) {f : Field} (member : f ∈ x.receiver.dataFields u) :
    x.FillsWith (x.KnownFits met) (x.sender.dataFields t) f := by
  have fills := closed t u meets f member
  unfold Fills at fills
  unfold FillsWith
  cases found : lastField? (x.sender.dataFields t) f.name with
  | some field =>
    simp only [found] at fills
    exact ⟨known_of_data_fields known (mem_of_last_field found).1, known_of_data_fields known' member,
      fills⟩
  | none =>
    simp only [found] at fills
    exact fills

/-- Types that fit are compatible, if the structs that met have their fields filled. -/
theorem consistent_fits (closed : x.Closed met) (sender : x.sender.Navigable)
    (receiver : x.receiver.Navigable) : x.Consistent (x.KnownFits met) := by
  rintro sent received ⟨known, known', fits⟩
  obtain ⟨stands, other⟩ := stands_subject sender.resolved known
  obtain ⟨stands', other'⟩ := stands_subject receiver.resolved known'
  have fits := fits.resolved stands stands'
  have behind := stands.known known
  have behind' := stands'.known known'
  generalize x.sender.subject sent = S at *
  generalize x.receiver.subject received = R at *
  cases fits with
  | sentName => exact absurd rfl (other _ _)
  | receivedName => exact absurd rfl (other' _ _)
  | admitted inner =>
    obtain ⟨suffixes, base⟩ := S
    rcases suffixes with _ | ⟨_ | _, rest⟩
    · exact .admitted rfl ⟨behind, behind', inner⟩
    · exact .optional ⟨behind, behind', inner.required rfl⟩
    · exact .admitted rfl ⟨behind, behind', inner⟩
  | optional inner => exact .optional ⟨behind, behind', inner⟩
  | array inner => exact .array ⟨behind, behind', inner⟩
  | struct meets =>
    refine .struct fun f member => known_fills closed ?_ ?_ meets member
    · rintro _ ⟨⟩
      exact behind
    · rintro _ ⟨⟩
      exact behind'
  | enum values =>
    refine .enum fun v member => ?_
    obtain ⟨w, found, meets⟩ := values v member
    have member' := (mem_of_last_value found).1
    exact ⟨w, found, fun f held => known_fills closed
      (fun t data => behind.reaches (.single (.value member data)))
      (fun t data => behind'.reaches (.single (.value member' data))) meets held⟩
  | primitive widens =>
    rcases widens with rfl | widens
    · exact .same
    · exact .wider widens
  | text bare => exact .wider (List.all_eq_true.mpr fun v member => by simp [bare v member])

theorem compatible_of_fits (closed : x.Closed met) (sender : x.sender.Navigable)
    (receiver : x.receiver.Navigable) (known : x.sender.Known sent.base)
    (known' : x.receiver.Known received.base) (fits : x.Fits met sent received) :
    x.Compatible sent received :=
  ⟨_, consistent_fits closed sender receiver, known, known', fits⟩

end Fitting

section Ending

/-- The comparison to a depth below which another one takes its place. -/
def compareDown (x : Transfer) (bottom : Comparison) : (depth : Nat) → Comparison
  | 0 => bottom
  | depth + 1 => x.compareStep (compareDown x bottom depth)

/-- The comparison of written types comes to an end above its bound: what would take its place
below is never used. -/
def Ends (x : Transfer) : Prop :=
  ∀ bottom depth, x.bound ≤ depth → ∀ f path sent received, x.sender.Known sent.base →
    x.receiver.Known received.base → x.sender.Written sent → x.receiver.Written received →
      x.compareDown bottom depth f path sent received = x.compare f path sent received

/-- Two comparisons agree wherever `n` exceeds the steps to their end. -/
def Coincide (x : Transfer) (n : Nat) (compare other : Comparison) : Prop :=
  ∀ f path sent received ds es, x.sender.Known sent.base → x.receiver.Known received.base →
    x.sender.Trail sent.base ds → x.receiver.Trail received.base es →
    x.room f * (x.span + 1) + suffixesAhead sent ds + suffixesAhead received es < n →
      compare f path sent received = other f path sent received

theorem foldl_coincide {α : Type} {step other : Findings → α → Findings} {items : List α}
    {f : Findings} (each : ∀ g, f.met ⊆ g.met → ∀ a ∈ items,
      step g a = other g a ∧ g.met ⊆ (step g a).met) : items.foldl step f = items.foldl other f := by
  induction items generalizing f with
  | nil => rfl
  | cons a rest ih =>
    obtain ⟨same, grows⟩ := each f (fun _ => id) a (List.mem_cons_self ..)
    rw [List.foldl_cons, List.foldl_cons, ← same]
    exact ih fun g further b member =>
      each g (List.Subset.trans grows further) b (List.mem_cons_of_mem _ member)

variable {n : Nat} {compare other : Comparison} {f : Findings} {met : List Meeting}

theorem coincide_written (coincide : x.Coincide n compare other) (sender : x.sender.Navigable)
    (receiver : x.receiver.Navigable) {sent received : TypeUse} (known : x.sender.Known sent.base)
    (known' : x.receiver.Known received.base) (written : x.sender.Written sent)
    (written' : x.receiver.Written received) (path : String)
    (enough : x.room f * (x.span + 1) + x.span < n) :
    compare f path sent received = other f path sent received := by
  obtain ⟨ds, trail⟩ := sender.trails known
  obtain ⟨es, trail'⟩ := receiver.trails known'
  have ahead := ahead_le_count written trail
  have ahead' := ahead_le_count written' trail'
  apply coincide f path sent received ds es known known' trail trail'
  unfold span at *
  omega

theorem coincide_structs (compares : x.Compares met n compare) (coincide : x.Coincide n compare other)
    (sender : x.sender.Navigable) (receiver : x.receiver.Navigable) {sent received : Option StructId}
    (known : ∀ t ∈ sent, x.sender.Known (.struct t))
    (known' : ∀ t ∈ received, x.receiver.Known (.struct t)) (path : String)
    (enough : x.room f * (x.span + 1) ≤ n) :
    x.compareStructs compare f path sent received = x.compareStructs other f path sent received := by
  unfold compareStructs
  dsimp only
  split
  · rfl
  · next new =>
    have free : ⟨x.direction, sent, received⟩ ∉ f.met := by simpa using new
    refine foldl_coincide fun g grows field member => ⟨?_, ?_⟩
    · unfold compareField
      cases found : lastField? (x.sender.dataFields sent) field.name with
      | none => rfl
      | some own =>
        have held := (mem_of_last_field found).1
        exact coincide_written coincide sender receiver (known_of_data_fields known held)
          (known_of_data_fields known' member) (written_of_data_fields held)
          (written_of_data_fields member) _ (enough_of_meet free grows held member enough)
    · exact (compare_field_fits compares sender receiver
        (fun own held => ⟨known_of_data_fields known held, written_of_data_fields held⟩)
        (known_of_data_fields known' member) (written_of_data_fields member) path
        fun own held => enough_of_meet free grows held member enough).grows

theorem coincide_bases (compares : x.Compares met n compare) (coincide : x.Coincide n compare other)
    (sender : x.sender.Navigable) (receiver : x.receiver.Navigable) {sent received : TypeBase}
    (known : x.sender.Known sent) (known' : x.receiver.Known received) (path : String)
    (enough : x.room f * (x.span + 1) ≤ n) :
    x.compareBases compare f path sent received = x.compareBases other f path sent received := by
  unfold compareBases
  split
  · next t u =>
    apply coincide_structs compares coincide sender receiver _ _ path enough
    · rintro _ ⟨⟩
      exact known
    · rintro _ ⟨⟩
      exact known'
  · next e i =>
    refine foldl_coincide fun g grows v member => ?_
    have rest := Nat.mul_le_mul_right (x.span + 1) (room_mono (x := x) grows)
    have data : ∀ t ∈ v.data, x.sender.Known (.struct t) :=
      fun t data => known.reaches (.single (.value member data))
    have data' : ∀ w ∈ (x.receiver.enum i).values, ∀ t ∈ w.data, x.receiver.Known (.struct t) :=
      fun w member' t data => known'.reaches (.single (.value member' data))
    refine ⟨?_, (compare_value_fits compares sender receiver data data' path
      (Nat.le_trans rest enough)).grows⟩
    unfold compareValue
    cases found : lastValue? (x.receiver.enum i).values v.text with
    | none => rfl
    | some w =>
      exact coincide_structs compares coincide sender receiver data
        (data' w (mem_of_last_value found).1) _ (Nat.le_trans rest enough)
  · rfl
  · rfl

theorem coincide_step (compares : x.Compares met n compare) (coincide : x.Coincide n compare other)
    (sender : x.sender.Navigable) (receiver : x.receiver.Navigable) :
    x.Coincide (n + 1) (x.compareStep compare) (x.compareStep other) := by
  intro f path sent received ds es known known' trail trail' enough
  obtain ⟨stands, -⟩ := stands_subject sender.resolved known
  obtain ⟨stands', -⟩ := stands_subject receiver.resolved known'
  obtain ⟨ds', further, same⟩ := stands.trail trail
  obtain ⟨es', further', same'⟩ := stands'.trail trail'
  rw [← same, ← same'] at enough
  have behind := stands.known known
  have behind' := stands'.known known'
  unfold compareStep
  dsimp only
  generalize x.sender.subject sent = S at *
  generalize x.receiver.subject received = R at *
  obtain ⟨suffixes, base⟩ := S
  obtain ⟨suffixes', base'⟩ := R
  simp only [suffixesAhead] at enough
  dsimp only
  have next : ∀ g path rest rest', x.room g ≤ x.room f →
      rest.length + rest'.length < suffixes.length + suffixes'.length →
        compare g path ⟨rest, base⟩ ⟨rest', base'⟩ = other g path ⟨rest, base⟩ ⟨rest', base'⟩ := by
    intro g path rest rest' less shorter
    have smaller := Nat.mul_le_mul_right (x.span + 1) less
    apply coincide g path ⟨rest, base⟩ ⟨rest', base'⟩ ds' es' behind behind' further further'
    simp only [suffixesAhead]
    omega
  split
  · next rest rest' => exact next f path rest rest' (Nat.le_refl _) (by simp; omega)
  · next rest' _ => exact next f path suffixes rest' (Nat.le_refl _) (by simp)
  · next rest _ =>
    exact next (f.report path x.unexpectedNull) path rest suffixes' (Nat.le_refl _) (by simp)
  · next rest rest' => exact next f (path ++ "[]") rest rest' (Nat.le_refl _) (by simp; omega)
  · refine coincide_bases compares coincide sender receiver behind behind' path ?_
    simp only [List.length_nil] at enough
    omega
  · rfl

theorem coincide_down (sender : x.sender.Navigable) (receiver : x.receiver.Navigable)
    (bottom : Comparison) (n : Nat) : x.Coincide n (x.compareWithin n) (x.compareDown bottom n) := by
  induction n with
  | zero => intro f path sent received ds es _ _ _ _ enough; cases enough
  | succ n ih =>
    have compares : x.Compares [] n (x.compareWithin n) := compare_within_fits sender receiver n
    exact coincide_step compares ih sender receiver

theorem compare_down_add (bottom : Comparison) (n k : Nat) :
    x.compareDown bottom (n + k) = x.compareDown (x.compareDown bottom k) n := by
  induction n with
  | zero => rw [Nat.zero_add]; rfl
  | succ n ih =>
    rw [Nat.succ_add]
    exact congrArg x.compareStep ih

theorem ends_of_navigable (sender : x.sender.Navigable) (receiver : x.receiver.Navigable) :
    x.Ends := by
  intro bottom depth deep f path sent received known known' written written'
  obtain ⟨k, rfl⟩ := Nat.exists_eq_add_of_le deep
  rw [compare_down_add]
  exact (coincide_written (coincide_down sender receiver _ _) sender receiver known known' written
    written' path (x.enough_bound f)).symm

end Ending

end Transfer

namespace Compatibility

open Schema Transfer

/-- An operation is there, and what is sent for it and back is compatible. -/
def OperationCompatible (old new : Schema) (o : Operation) : Prop :=
  ∃ p, successor? new o = some p ∧ (toClient old new).Compatible p.returns o.returns ∧
    ∀ f ∈ p.args.map new.field,
      (toServer old new).FillsWith (toServer old new).Compatible (o.args.map old.field) f

/-- The data of an error is compatible with what it was, if the error is still there. -/
def ErrorCompatible (old new : Schema) (e : ErrorKind) : Prop :=
  ∀ later, laterError? new e = some later → (toClient old new).Compatible later.data e.data

variable {old new : Schema}

theorem Analysed.navigable {s : Schema} (analysed : s.Analysed) : s.Navigable := by
  obtain ⟨_, _, _, grounded, stages⟩ := analysed.accepted
  exact ⟨stages.resolved grounded, stages.trails grounded⟩

theorem operation_silent {o : Operation} (compatible : OperationCompatible old new o) (f : Findings) :
    (compareOperation old new f o).issues = f.issues := by
  obtain ⟨p, found, returns, args⟩ := compatible
  unfold compareOperation
  rw [successor?] at found
  simp only [found]
  have arguments : ∀ g, ((p.args.map new.field).foldl (compareArgument old new o) g).issues = g.issues :=
    fun g => foldl_silent fun field member g =>
      compare_field_silent (x := toServer old new) (compare_within_silent _ _) (args field member)
  rw [arguments]
  exact compare_within_silent (toClient old new) _ _ _ _ _ returns

theorem error_silent {e : ErrorKind} (compatible : ErrorCompatible old new e) (f : Findings) :
    (compareError old new f e).issues = f.issues := by
  unfold compareError
  unfold ErrorCompatible laterError? at compatible
  cases found : new.errors.reverse.find? (·.name == e.name) with
  | none => rfl
  | some later => exact compare_within_silent (toClient old new) _ _ _ _ _ (compatible later found)

theorem operation_compatible (older : old.Navigable) (newer : new.Navigable) {met : List Meeting}
    (closed : (toServer old new).Closed met ∧ (toClient old new).Closed met) {o : Operation}
    (member : o ∈ old.operations) (fits : OperationFits old new met o) :
    OperationCompatible old new o := by
  obtain ⟨p, found, returns, args⟩ := fits
  have member' := (mem_of_successor found).1
  refine ⟨p, found, ?_, fun f given => ?_⟩
  · exact compatible_of_fits closed.2 newer older (known_of_declares (.returns member'))
      (known_of_declares (.returns member)) returns
  · have fills := args f given
    unfold Fills at fills
    unfold FillsWith
    cases shared : lastField? (o.args.map old.field) f.name with
    | none => simpa only [shared] using fills
    | some own =>
      simp only [shared] at fills
      obtain ⟨id, held, rfl⟩ := List.mem_map.mp (mem_of_last_field shared).1
      obtain ⟨id', held', rfl⟩ := List.mem_map.mp given
      exact compatible_of_fits closed.1 older newer
        (known_of_declares (.argument member (.inr held)))
        (known_of_declares (.argument member' (.inr held'))) fills

/-- Between two analysed schemas the comparison ends, and it finds no issue exactly if every
operation is still there, all that is sent for it and back is compatible, and so is the data of the
errors that are still there. -/
theorem issues_iff_compatible (older : old.Analysed) (newer : new.Analysed) :
    (toServer old new).Ends ∧ (toClient old new).Ends ∧
      (issues old new = [] ↔ (∀ o ∈ old.operations, OperationCompatible old new o) ∧
        ∀ e ∈ old.errors, ErrorCompatible old new e) := by
  have oldTypes := Analysed.navigable older
  have newTypes := Analysed.navigable newer
  refine ⟨ends_of_navigable oldTypes newTypes, ends_of_navigable newTypes oldTypes, ?_, ?_⟩
  · intro none
    have agrees := agrees_of_issues oldTypes newTypes none
    refine ⟨fun o member => ?_, fun e member later found => ?_⟩
    · exact operation_compatible oldTypes newTypes agrees.closed member (agrees.operations o member)
    · exact compatible_of_fits agrees.closed.2 newTypes oldTypes
        (known_of_declares (.error (mem_of_later_error found).1))
        (known_of_declares (.error member)) (agrees.errors e member later found)
  · rintro ⟨operations, errors⟩
    have first : (old.operations.foldl (compareOperation old new) {}).issues = [] :=
      foldl_silent fun o member => operation_silent (operations o member)
    rw [issues_eq, findings, foldl_silent fun e member => error_silent (errors e member), first]

def lists : String × String :=
  ("type List \x7b head: uint tail: List? \x7d\nfn length(list: List): uint",
   "type Rest Node?\ntype Node \x7b head: int tail: Rest note: string? \x7d\n" ++
     "fn length(list: Node, limit: int?): uint")

theorem lists_compatible : ∃ old new : Schema, old.Analysed ∧ new.Analysed ∧
    old.operations.length = 1 ∧ ∀ o ∈ old.operations, OperationCompatible old new o := by
  have checked : ((analysed? lists.1).bind fun old => (analysed? lists.2).map fun new =>
      decide (old.operations.length = 1 ∧ (issues old new).isEmpty)) = some true := by
    simp only [analysed?, SchemaTree.parse_by_chars]
    decide +kernel
  obtain ⟨old, found, checked⟩ := Option.bind_eq_some_iff.mp checked
  obtain ⟨new, found', checked⟩ := Option.map_eq_some_iff.mp checked
  have older := analysed_of_some found
  have newer := analysed_of_some found'
  obtain ⟨single, none⟩ := of_decide_eq_true checked
  exact ⟨old, new, older, newer, single,
    ((issues_iff_compatible older newer).2.2.mp (List.isEmpty_iff.mp none)).1⟩

end Compatibility

end ApiSchema
