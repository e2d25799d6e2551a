import ApiSchema.Proofs.Analysis.Requirement

/-! Other spellings of a type. Whether a definition refers to itself does not depend on which fields
are written with an alias of a struct or an enum; whether each of its values holds another one does not
either, but the search for that can be led astray by an alias that several values of an enum share. -/

namespace ApiSchema

/-- The type is a reference to a name, without suffix. -/
def TypeUse.refersTo (t : TypeUse) (name : String) : Bool :=
  match t with
  | ⟨[], .reference other _⟩ => other == name
  | _ => false

namespace Schema

open AliasSearch

/-- One name is a plain alias of another one, which is the name of a struct or an enum. Definitions of
one name do not differ in that. -/
structure PlainAlias (s : Schema) (short name : String) : Prop where
  defined : ∃ d ∈ s.definitions, d.name = short
  refers : ∀ d ∈ s.definitions, d.name = short → d.type.refersTo name = true
  known : ∃ d ∈ s.definitions, d.name = name
  nested : ∀ d ∈ s.definitions, d.name = name → d.type.isNested = true

/-- A base in which one name may have taken the place of another one. -/
inductive Respelled (short name : String) : TypeBase → TypeBase → Prop where
  | same {base} : Respelled short name base base
  | other {location location'} :
    Respelled short name (.reference short location) (.reference name location')

def RespelledUse (short name : String) (t t' : TypeUse) : Prop :=
  t'.suffixes = t.suffixes ∧ Respelled short name t.base t'.base

/-- The same schema, but for some fields: they are written with one name in the place of another. -/
structure Respells (s s' : Schema) (short name : String) : Prop where
  rest : s' = { s with fields := s'.fields }
  types : ∀ id, RespelledUse short name (s.field id).type (s'.field id).type

variable {s s' : Schema} {short name : String}

theorem refers_to_iff {t : TypeUse} :
    t.refersTo name = true ↔ ∃ location, t = ⟨[], .reference name location⟩ := by
  obtain ⟨suffixes, base⟩ := t
  cases suffixes <;> cases base <;> simp [TypeUse.refersTo]

namespace PlainAlias

theorem definition (synonym : s.PlainAlias short name) :
    ∃ d location, s.definition? short = some d ∧ d.type = ⟨[], .reference name location⟩ := by
  obtain ⟨d, member, named⟩ := synonym.defined
  have found : (s.definition? short).isSome := List.find?_isSome.mpr ⟨d, member, by simp [named]⟩
  obtain ⟨first, defined⟩ := Option.isSome_iff_exists.mp found
  obtain ⟨listed, called⟩ := name_of_definition defined
  obtain ⟨location, refers⟩ := refers_to_iff.mp (synonym.refers first listed called)
  exact ⟨first, location, defined, refers⟩

theorem link (synonym : s.PlainAlias short name) : s.link short = .onward name := by
  obtain ⟨d, location, defined, refers⟩ := synonym.definition
  exact link_of_alias defined refers

theorem stop (synonym : s.PlainAlias short name) (next : String) : s.link name ≠ .onward next := by
  intro onward
  obtain ⟨d, location, defined, refers⟩ := link_onward onward
  obtain ⟨listed, called⟩ := name_of_definition defined
  have nested := synonym.nested d listed called
  rw [refers] at nested
  cases nested

theorem plain_of_definition (synonym : s.PlainAlias short name) {d : Definition}
    (defined : s.definition? name = some d) (plain : d.type.isNested = false) : False := by
  obtain ⟨listed, called⟩ := name_of_definition defined
  rw [synonym.nested d listed called] at plain
  cases plain

theorem ne (synonym : s.PlainAlias short name) : short ≠ name := by
  rintro rfl
  exact synonym.stop _ synonym.link

/-- Only the name itself and its alias lead to the name from there. -/
theorem chains_name (synonym : s.PlainAlias short name) {other : String} {n : Nat}
    (chains : s.Chains other n name) : other = name := by
  cases chains with
  | here => rfl
  | behind _ onward => exact absurd onward (synonym.stop _)

theorem chains_short_iff (synonym : s.PlainAlias short name) {other : String} (apart : other ≠ short) :
    (∃ n, s.Chains other n short) ↔ other = name := by
  constructor
  · rintro ⟨n, chains⟩
    cases chains with
    | here => exact absurd rfl apart
    | behind _ onward rest =>
      rw [synonym.link] at onward
      cases onward
      exact synonym.chains_name rest
  · rintro rfl
    exact ⟨1, .behind synonym.ne synonym.link .here⟩

theorem not_recurs (synonym : s.PlainAlias short name) {d : Definition} (member : d ∈ s.definitions)
    (called : d.name = short) : ¬ s.Recurs short d.type.base := by
  obtain ⟨location, refers⟩ := refers_to_iff.mp (synonym.refers d member called)
  rw [refers]
  intro recurs
  cases recurs with
  | here => exact synonym.ne rfl
  | behind defined plain => exact synonym.plain_of_definition defined plain

end PlainAlias

namespace Respells

theorem struct (respells : s.Respells s' short name) (t : StructId) : s'.struct t = s.struct t := by
  rw [respells.rest]; rfl

theorem enum (respells : s.Respells s' short name) (e : EnumId) : s'.enum e = s.enum e := by
  rw [respells.rest]; rfl

theorem definitions (respells : s.Respells s' short name) : s'.definitions = s.definitions := by
  rw [respells.rest]

theorem definition? (respells : s.Respells s' short name) (other : String) :
    s'.definition? other = s.definition? other := by
  rw [respells.rest]; rfl

theorem link (respells : s.Respells s' short name) (other : String) :
    s'.link other = s.link other := by
  rw [respells.rest]; rfl

theorem bounds (respells : s.Respells s' short name) :
    s'.nestingBound = s.nestingBound ∧ s'.recursionBound = s.recursionBound := by
  rw [respells.rest]; exact ⟨rfl, rfl⟩

theorem declares (respells : s.Respells s' short name) {base : TypeBase}
    (declared : s'.Declares base) : ∃ base', s.Declares base' ∧ Respelled short name base' base := by
  have operations : s'.operations = s.operations := by rw [respells.rest]
  have errors : s'.errors = s.errors := by rw [respells.rest]
  cases declared with
  | definition member => exact ⟨_, .definition (respells.definitions ▸ member), .same⟩
  | error member => exact ⟨_, .error (errors ▸ member), .same⟩
  | argument member held => exact ⟨_, .argument (operations ▸ member) held, (respells.types _).2⟩
  | spread member held => exact ⟨_, .spread (operations ▸ member) held, .same⟩
  | returns member => exact ⟨_, .returns (operations ▸ member), .same⟩

theorem deep (respells : s.Respells s' short name) {n : Nat} {base' : TypeBase}
    (deep : s'.Deep n base') : ∀ {base}, Respelled short name base base' → s.Deep n base := by
  induction deep with
  | here nested =>
    intro base spelled
    cases spelled with
    | same => exact .here nested
    | other => cases nested
  | inside nests _ ih =>
    intro base spelled
    cases nests with
    | field held =>
      cases spelled
      rw [Holds, respells.struct] at held
      exact .inside (.field held) (ih (respells.types _).2)
    | value member data =>
      cases spelled
      exact .inside (.value (respells.enum _ ▸ member) data) (ih .same)

theorem grounded (respells : s.Respells s' short name) (grounded : s.Grounded) : s'.Grounded := by
  intro base declared
  obtain ⟨base', known, spelled⟩ := respells.declares declared
  rw [acyclic_iff, respells.bounds.1]
  exact fun deep => acyclic_iff.mp (grounded base' known) (respells.deep deep spelled)

section Recursion

variable {other : String}

theorem recurs (respells : s.Respells s' short name) (synonym : s.PlainAlias short name)
    (apart : other ≠ short) {base : TypeBase} (recurs : s.Recurs other base) :
    ∀ {base'}, Respelled short name base base' → s'.Recurs other base' := by
  induction recurs with
  | here =>
    intro base' spelled
    cases spelled with
    | same => exact .here
    | other => exact absurd rfl apart
  | behind defined plain rest ih =>
    intro base' spelled
    cases spelled with
    | same => exact .behind (respells.definition? _ ▸ defined) plain (ih .same)
    | other =>
      obtain ⟨d, location, defined', refers⟩ := synonym.definition
      rw [defined] at defined'
      cases defined'
      rw [refers] at rest
      cases rest with
      | here => exact .here
      | behind further nested => exact (synonym.plain_of_definition further nested).elim
  | field held _ ih =>
    intro base' spelled
    cases spelled
    exact .field (respells.struct _ ▸ held) (ih (respells.types _).2)
  | value member data _ ih =>
    intro base' spelled
    cases spelled
    exact .value (respells.enum _ ▸ member) data (ih .same)

theorem recurs_back (respells : s.Respells s' short name) (synonym : s.PlainAlias short name)
    {base' : TypeBase} (recurs : s'.Recurs other base') :
    ∀ {base}, Respelled short name base base' → s.Recurs other base := by
  induction recurs with
  | here =>
    intro base spelled
    cases spelled with
    | same => exact .here
    | other =>
      obtain ⟨d, location, defined, refers⟩ := synonym.definition
      exact .behind defined (by rw [refers]; rfl) (by rw [refers]; exact .here)
  | behind defined plain _ ih =>
    intro base spelled
    rw [respells.definition?] at defined
    cases spelled with
    | same => exact .behind defined plain (ih .same)
    | other => exact (synonym.plain_of_definition defined plain).elim
  | field held _ ih =>
    intro base spelled
    cases spelled
    rw [respells.struct] at held
    exact .field held (ih (respells.types _).2)
  | value member data _ ih =>
    intro base spelled
    cases spelled
    rw [respells.enum] at member
    exact .value member data (ih .same)

theorem is_recursive (respells : s.Respells s' short name) (synonym : s.PlainAlias short name)
    (grounded : s.Grounded) {d : Definition} (member : d ∈ s.definitions) :
    s'.isRecursive d = s.isRecursive d := by
  have own := is_recursive_iff grounded member
  have member' : d ∈ s'.definitions := respells.definitions ▸ member
  have new := is_recursive_iff (respells.grounded grounded) member'
  rw [Bool.eq_iff_iff, own, new]
  constructor
  · exact fun recurs => respells.recurs_back synonym recurs .same
  · intro recurs
    by_cases called : d.name = short
    · exact absurd (called ▸ recurs) (synonym.not_recurs member called)
    · exact respells.recurs synonym called recurs .same

end Recursion

theorem synonym (respells : s.Respells s' short name) (synonym : s.PlainAlias short name) :
    s'.PlainAlias short name := by
  obtain ⟨defined, refers, known, nested⟩ := synonym
  rw [← respells.definitions] at defined refers known nested
  exact ⟨defined, refers, known, nested⟩

section Requirement

variable {other : String}

theorem chains_iff (respells : s.Respells s' short name) {n : Nat} {first : String} :
    s'.Chains other n first ↔ s.Chains other n first :=
  ⟨.of_links respells.link, .of_links fun other => (respells.link other).symm⟩

theorem needs (respells : s.Respells s' short name) (synonym : s.PlainAlias short name)
    (apart : other ≠ short) {t : TypeUse} (needs : s.Needs other t) :
    ∀ {t'}, RespelledUse short name t t' → s'.Needs other t' := by
  induction needs with
  | reference chains =>
    rintro ⟨_, base⟩ ⟨rfl, spelled⟩
    cases spelled with
    | same => exact .reference (respells.chains_iff.mpr chains)
    | other =>
      cases (synonym.chains_short_iff apart).mp ⟨_, chains⟩
      exact .reference .here
  | field held _ ih =>
    rintro ⟨_, base⟩ ⟨rfl, spelled⟩
    cases spelled
    exact .field (respells.struct _ ▸ held) (ih (respells.types _))
  | values data each _ ih =>
    rintro ⟨_, base⟩ ⟨rfl, spelled⟩
    cases spelled
    rw [← respells.enum] at each ih
    exact .values data each fun v member => ih v member ⟨rfl, .same⟩

theorem needs_back (respells : s.Respells s' short name) (synonym : s.PlainAlias short name)
    (apart : other ≠ short) {t' : TypeUse} (needs : s'.Needs other t') :
    ∀ {t}, RespelledUse short name t t' → s.Needs other t := by
  induction needs with
  | reference chains =>
    rintro ⟨_, base⟩ ⟨rfl, spelled⟩
    rw [respells.chains_iff] at chains
    cases spelled with
    | same => exact .reference chains
    | other =>
      obtain ⟨n, further⟩ := (synonym.chains_short_iff apart).mpr (synonym.chains_name chains)
      exact .reference further
  | field held _ ih =>
    rintro ⟨_, base⟩ ⟨rfl, spelled⟩
    cases spelled
    rw [respells.struct] at held
    exact .field held (ih (respells.types _))
  | values data each _ ih =>
    rintro ⟨_, base⟩ ⟨rfl, spelled⟩
    cases spelled
    rw [respells.enum] at each ih
    exact .values data each fun v member => ih v member ⟨rfl, .same⟩

theorem needs_iff (respells : s.Respells s' short name) (synonym : s.PlainAlias short name)
    (apart : other ≠ short) {t : TypeUse} : s'.Needs other t ↔ s.Needs other t :=
  ⟨fun needs => respells.needs_back synonym apart needs ⟨rfl, .same⟩,
    fun needs => respells.needs synonym apart needs ⟨rfl, .same⟩⟩

theorem demands_back (respells : s.Respells s' short name) {t t' next' : TypeUse}
    (way : Relation.ReflTransGen s'.Demands t' next') (spelled : RespelledUse short name t t') :
    ∃ next, Relation.ReflTransGen s.Demands t next ∧ RespelledUse short name next next' := by
  induction way with
  | refl => exact ⟨t, .refl, spelled⟩
  | tail _ demands ih =>
    obtain ⟨⟨_, base⟩, way, same, spelled⟩ := ih
    cases demands with
    | field held =>
      cases same
      cases spelled
      rw [respells.struct] at held
      exact ⟨_, way.tail (.field held), respells.types _⟩
    | value member data =>
      cases same
      cases spelled
      rw [respells.enum] at member
      exact ⟨_, way.tail (.value member data), rfl, .same⟩

theorem spelled (respells : s.Respells s' short name) (synonym : s.PlainAlias short name)
    {t t' : TypeUse} (spelled : s.Spelled other t) (same : RespelledUse short name t t') :
    s'.Spelled other t' := by
  intro first location n way chains
  rw [respells.chains_iff] at chains
  obtain ⟨⟨_, base⟩, way, rfl, before⟩ := respells.demands_back way same
  cases before with
  | same => exact spelled first location n way chains
  | other => exact (synonym.chains_name chains).symm

theorem separate (respells : s.Respells s' short name) (synonym : s.PlainAlias short name)
    {t : TypeUse} (separate : s.Separate other t) : s'.Separate other t := by
  intro e way
  obtain ⟨⟨_, base⟩, way, rfl, before⟩ := respells.demands_back way ⟨rfl, .same⟩
  cases before
  rw [respells.enum]
  exact (separate e way).imp_right fun spelled => respells.spelled synonym spelled ⟨rfl, .same⟩

end Requirement

end Respells

def SeenBut (short : String) (seen seen' : List String) : Prop :=
  ∀ other, other ≠ short → (other ∈ seen ↔ other ∈ seen')

theorem SeenBut.symm {seen seen' : List String} (both : SeenBut short seen seen') :
    SeenBut short seen' seen :=
  fun other plain => (both other plain).symm

namespace PlainAlias

variable {other : String} {fuel : Nat} {seen seen' : List String} {location : Location}

theorem requires_name (synonym : s.PlainAlias short name) (apart : other ≠ name) :
    (s.requiresName other fuel ⟨[], .reference name location⟩).run seen = (false, seen) := by
  cases fuel with
  | zero => rfl
  | succ fuel =>
    rw [requires_reference, if_neg apart.symm]
    split
    · next next onward => exact absurd onward (synonym.stop next)
    · rfl

/-- Where another name is searched, the alias leads to nothing. -/
theorem requires_short (synonym : s.PlainAlias short name) (apart : other ≠ short)
    (apart' : other ≠ name) (both : SeenBut short seen seen') :
    ((s.requiresName other fuel ⟨[], .reference short location⟩).run seen).1 = false ∧
      SeenBut short ((s.requiresName other fuel ⟨[], .reference short location⟩).run seen).2
        seen' := by
  cases fuel with
  | zero => exact ⟨rfl, both⟩
  | succ fuel =>
    rw [requires_reference, if_neg apart.symm]
    simp only [synonym.link]
    split
    · exact ⟨rfl, both⟩
    · rw [synonym.requires_name apart']
      exact ⟨rfl, fun first plain => by simpa [plain] using both first plain⟩

end PlainAlias

namespace Respells

theorem tracks_reference (respells : s.Respells s' short name) {other first : String}
    (plain : first ≠ short) {fuel : Nat} {location : Location}
    (behind : ∀ next, Tracks (SeenBut short) (s.requiresName other fuel ⟨[], .reference next {}⟩)
      (s'.requiresName other fuel ⟨[], .reference next {}⟩)) :
    Tracks (SeenBut short) (s.requiresName other (fuel + 1) ⟨[], .reference first location⟩)
      (s'.requiresName other (fuel + 1) ⟨[], .reference first location⟩) := by
  intro seen seen' both
  rw [requires_reference, requires_reference, respells.link]
  by_cases found : first = other
  · rw [if_pos found, if_pos found]
    exact ⟨rfl, both⟩
  · rw [if_neg found, if_neg found]
    split
    · next next onward =>
      by_cases visited : first ∈ seen
      · rw [if_pos visited, if_pos ((both first plain).mp visited)]
        exact ⟨rfl, both⟩
      · rw [if_neg visited, if_neg (mt (both first plain).mpr visited)]
        apply behind next (first :: seen) (first :: seen')
        intro o apart
        simp only [List.mem_cons, both o apart]
    · exact ⟨rfl, both⟩

/-- The searches for other names find the same in both spellings. -/
theorem tracks (respells : s.Respells s' short name) (synonym : s.PlainAlias short name)
    {other : String} (apart : other ≠ short) (apart' : other ≠ name) {fuel : Nat} :
    ∀ {t t'}, RespelledUse short name t t' →
      Tracks (SeenBut short) (s.requiresName other fuel t) (s'.requiresName other fuel t') := by
  induction fuel with
  | zero => exact fun _ _ _ both => ⟨rfl, both⟩
  | succ fuel ih =>
    rintro ⟨_, base⟩ ⟨suffixes, base'⟩ ⟨rfl, spelled⟩
    have synonym' := respells.synonym synonym
    cases suffixes with
    | cons suffix rest =>
      intro seen seen' both
      rw [requires_suffixed, requires_suffixed]
      exact ⟨rfl, both⟩
    | nil =>
      cases spelled with
      | other =>
        intro seen seen' both
        rw [synonym'.requires_name apart']
        exact synonym.requires_short apart apart' both
      | same =>
        cases base with
        | primitive kind =>
          intro seen seen' both
          rw [requires_primitive, requires_primitive]
          exact ⟨rfl, both⟩
        | reference first location =>
          by_cases plain : first = short
          · subst plain
            intro seen seen' both
            obtain ⟨unfound, both⟩ := synonym.requires_short apart apart' both
            obtain ⟨unfound', both⟩ := synonym'.requires_short apart apart' both.symm
            exact ⟨unfound.trans unfound'.symm, both.symm⟩
          · exact respells.tracks_reference plain fun next => ih ⟨rfl, .same⟩
        | struct t =>
          rw [requires_struct, requires_struct, respells.struct]
          exact .any_of fun id _ => ih (respells.types id)
        | enum e =>
          rw [requires_enum, requires_enum, respells.enum]
          refine .all_of fun v _ => ?_
          unfold valueRequires
          cases v.data with
          | none => exact fun _ _ both => ⟨rfl, both⟩
          | some t => exact ih ⟨rfl, .same⟩

theorem is_endless (respells : s.Respells s' short name) (synonym : s.PlainAlias short name)
    {d : Definition} (apart : d.name ≠ short) (apart' : d.name ≠ name) :
    s'.isEndless d = s.isEndless d := by
  have tracks : Tracks (SeenBut short) (s.requiresName d.name s.recursionBound d.type)
      (s'.requiresName d.name s.recursionBound d.type) :=
    respells.tracks synonym apart apart' ⟨rfl, .same⟩
  rw [isEndless, isEndless, respells.bounds.2, (tracks [] [] fun _ _ => .rfl).1]

theorem judge (respells : s.Respells s' short name) (synonym : s.PlainAlias short name)
    (grounded : s.Grounded) {d : Definition} (member : d ∈ s.definitions)
    (endless : d.name ≠ short → d.type.isNested = true → s'.isEndless d = s.isEndless d) :
    s'.judge d = s.judge d := by
  have recursive := respells.is_recursive synonym grounded member
  by_cases called : d.name = short
  · have plain : s.isRecursive d = false := by
      have never := mt (is_recursive_iff grounded member).mp
        (called ▸ synonym.not_recurs member called)
      simpa using never
    rw [Schema.judge, Schema.judge, recursive, plain]
    rfl
  · cases nested : d.type.isNested with
    | false => rw [Schema.judge, Schema.judge, recursive, nested]; rfl
    | true => rw [Schema.judge, Schema.judge, recursive, endless called nested]

end Respells

theorem forM_congr {α ε : Type} {f g : α → Except ε PUnit} {items : List α}
    (same : ∀ a ∈ items, f a = g a) : items.forM f = items.forM g := by
  induction items with
  | nil => rfl
  | cons a rest ih =>
    obtain ⟨first, others⟩ := List.forall_mem_cons.mp same
    simp only [List.forM, first, ih others]

/-- Whether a definition refers to itself does not depend on where a plain alias of a struct or an enum
is written for it, nor does what the pass says of other definitions. It finds no type endless whose
values do not each hold another one, in any spelling; and if the values of its enums share no alias of
the type, it says the same of it in both. A definition that is refused in one spelling is so in every
other one in which they share none. -/
theorem aliases_transparent (synonym : s.PlainAlias short name)
    (respells : s.Respells s' short name) (reached : s.checkEmptiness = .ok ()) :
    (∀ d ∈ s.definitions, s'.isRecursive d = s.isRecursive d) ∧
    (∀ d ∈ s.definitions, d.name ≠ name ∨ s.Separate name d.type ∨ ¬ s.Needs name d.type →
      s'.judge d = s.judge d) ∧
    (∀ d ∈ s.definitions, s'.Separate d.name d.type → s.judge d ≠ .ok () →
      s'.judge d = s.judge d) ∧
    ((∀ d ∈ s.definitions, d.name = name → s.Separate name d.type ∨ ¬ s.Needs name d.type) →
      s'.checkRecursions = s.checkRecursions) := by
  have grounded := grounded_of_check_emptiness reached
  have own : ∀ d ∈ s.definitions, _ := fun d member => is_endless_iff grounded member
  have new : ∀ d ∈ s.definitions, _ := fun d member =>
    is_endless_iff (respells.grounded grounded) (respells.definitions ▸ member)
  have judged : ∀ d ∈ s.definitions,
      d.name ≠ name ∨ s.Separate name d.type ∨ ¬ s.Needs name d.type → s'.judge d = s.judge d := by
    intro d member either
    refine respells.judge synonym grounded member fun apart _ => ?_
    have same := respells.needs_iff synonym apart (t := d.type)
    by_cases called : d.name = name
    · subst called
      rw [Bool.eq_iff_iff]
      rcases either with different | separate | free
      · exact absurd rfl different
      · rw [(own d member).2 separate, (new d member).2 (respells.separate synonym separate), same]
      · exact iff_of_false (fun found => free (same.mp ((new d member).1 found)))
          fun found => free ((own d member).1 found)
    · exact respells.is_endless synonym apart called
  refine ⟨fun d member => respells.is_recursive synonym grounded member, judged, ?_, ?_⟩
  · intro d member separate refused
    refine respells.judge synonym grounded member fun apart nested => ?_
    have endless : s.isEndless d = true := by
      by_contra free
      exact refused (by simp [Schema.judge, nested, free])
    have needs := (respells.needs_iff synonym apart).mpr ((own d member).1 endless)
    rw [endless, ((new d member).2 separate).mpr needs]
  · intro each
    rw [check_recursions_eq, check_recursions_eq, respells.definitions]
    refine forM_congr fun d member => judged d member ?_
    by_cases called : d.name = name
    · exact .inr (each d member called)
    · exact .inl called

/-- One field is written with another name. -/
def respell (s : Schema) (id : FieldId) (name : String) : Schema :=
  let f := s.field id
  s.setField id { f with type := { f.type with base := .reference name f.location } }

theorem respells_respell {id : FieldId} {location : Location}
    (spelled : (s.field id).type.base = .reference short location) :
    s.Respells (s.respell id name) short name := by
  refine ⟨rfl, fun other => ?_⟩
  rw [respell, field_setField]
  split
  · next chosen => exact ⟨by rw [chosen.1], by rw [chosen.1, spelled]; exact .other⟩
  · exact ⟨rfl, .same⟩

def isPlainAlias (s : Schema) (short name : String) : Bool :=
  s.definitions.any (·.name == short) && s.definitions.any (·.name == name) &&
    s.definitions.all fun d =>
      (d.name != short || d.type.refersTo name) && (d.name != name || d.type.isNested)

theorem plain_alias_of_is_plain_alias (passed : s.isPlainAlias short name = true) :
    s.PlainAlias short name := by
  simp only [isPlainAlias, Bool.and_eq_true, List.any_eq_true, List.all_eq_true, beq_iff_eq,
    Bool.or_eq_true, bne_iff_ne] at passed
  obtain ⟨⟨defined, known⟩, each⟩ := passed
  exact ⟨defined, fun d member called => (each d member).1.resolve_left (absurd called),
    known, fun d member called => (each d member).2.resolve_left (absurd called)⟩

def linked : String :=
  "type Node \x7b next: Link?, first: enum \x7b held \x7b node: Link \x7d \x7d \x7d\ntype Link Node"

theorem linked_respelled : ∃ s, reached? linked = some s ∧
    s.checkRecursions = refuse (.endlessType "Node" ⟨"-", 1, 1⟩) ∧
    (s.respell 1 "Node").checkRecursions = s.checkRecursions ∧ s ≠ s.respell 1 "Node" := by
  have checked : (reached? linked).map (fun s =>
      (s.isPlainAlias "Link" "Node", decide (∀ e ∈ s.enums.toList, e.values.length ≤ 1),
        (s.field 1).type.base, s.checkRecursions, decide (s = s.respell 1 "Node"))) =
          some (true, true, .reference "Link" ⟨"-", 1, 53⟩,
            refuse (.endlessType "Node" ⟨"-", 1, 1⟩), false) := by
    simp only [reached?, SchemaTree.parse_by_chars]
    decide +kernel
  cases found : reached? linked with
  | none => rw [found] at checked; cases checked
  | some s =>
    rw [found] at checked
    obtain ⟨synonym, few, spelled, refused, other⟩ : _ ∧ _ ∧ _ ∧ _ ∧ _ := by
      simpa only [Option.map_some, Option.some.injEq, Prod.mk.injEq] using checked
    refine ⟨s, rfl, refused, ?_, of_decide_eq_false other⟩
    exact (aliases_transparent (plain_alias_of_is_plain_alias synonym) (respells_respell spelled)
      (reached_of_found found)).2.2.2 fun d _ _ => .inl (separate_of_few (of_decide_eq_true few) _)

/-- The values of the enum share an alias of it. -/
def shared : String :=
  "type A enum \x7b a \x7b x: B \x7d b \x7b y: B \x7d \x7d\ntype B A\nfn f(a: A)"

/-- The enum is accepted as it is written, and refused when one of its values does not use the alias. -/
theorem shared_alias_missed : ∃ s, reached? shared = some s ∧ s.PlainAlias "B" "A" ∧
    s.Respells (s.respell 1 "A") "B" "A" ∧ s.checkRecursions = .ok () ∧
    (s.respell 1 "A").checkRecursions = refuse (.endlessType "A" ⟨"-", 1, 1⟩) := by
  have checked : (reached? shared).map (fun s =>
      (s.isPlainAlias "B" "A", (s.field 1).type.base, s.checkRecursions,
        (s.respell 1 "A").checkRecursions)) =
          some (true, .reference "B" ⟨"-", 1, 33⟩, .ok (),
            refuse (.endlessType "A" ⟨"-", 1, 1⟩)) := by
    simp only [reached?, SchemaTree.parse_by_chars]
    decide +kernel
  cases found : reached? shared with
  | none => rw [found] at checked; cases checked
  | some s =>
    rw [found] at checked
    obtain ⟨synonym, spelled, accepted, refused⟩ : _ ∧ _ ∧ _ ∧ _ := by
      simpa only [Option.map_some, Option.some.injEq, Prod.mk.injEq] using checked
    exact ⟨s, rfl, plain_alias_of_is_plain_alias synonym, respells_respell spelled, accepted, refused⟩

end Schema

end ApiSchema
