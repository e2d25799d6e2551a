import ApiSchema.Proofs.Analysis.Notes
import ApiSchema.Proofs.Analysis.Collection
import ApiSchema.Proofs.Analysis.Trails
import ApiSchema.Proofs.Analysis.Following

/-! What the check of a mapping asks of an operation. Types are judged by what they stand for, except
for an optional of a query or a header and for a result that is nothing, which count as written. -/

namespace ApiSchema

def RestMapping.variables (m : RestMapping) : List String :=
  m.pathVariables ++ m.queryVariables ++ m.headerVariables

namespace Schema

/-- The type stands for one that can be written into a path, a query or a header. -/
def Encodable (s : Schema) (t : TypeUse) : Prop :=
  (∃ kind ∈ restKinds, s.Stands t (.primitive kind)) ∨ ∃ e, s.Stands t (.ofBase (.enum e))

/-- The type stands for an optional one. -/
def Nullable (s : Schema) (t : TypeUse) : Prop := ∃ rest base, s.Stands t ⟨.optional :: rest, base⟩

/-- What a mapping asks of the arguments and the result of an operation. -/
structure Admits (s : Schema) (args : List Field) (returns : TypeUse) (m : RestMapping) : Prop where
  once : m.variables.Nodup
  suited : ∀ name ∈ m.variables, ∃ arg, args.find? (·.name == name) = some arg ∧
    (name ∈ m.pathVariables → arg.type.isOptional = false) ∧ s.Encodable (required arg.type)
  body : ∀ name, m.bodyVariable = some name → ∃ arg ∈ args, arg.name = name
  bound : ∀ arg ∈ args, arg.name ∈ m.variables ∨ m.bodyVariable = some arg.name
  secrets : m.method = "GET" → ∀ arg ∈ args, arg.secret = true →
    arg.name ∉ m.pathVariables ∧ arg.name ∉ m.queryVariables
  answers : m.method = "GET" → returns ≠ .primitive .void

variable {s : Schema} {t u v : TypeUse}

section Ends

theorem primitive_ends (kind : Primitive) (name : String) (location : Location) :
    TypeUse.primitive kind ≠ ⟨[], .reference name location⟩ := by
  simp [TypeUse.primitive, TypeUse.ofBase]

theorem Stands.unique (stands : s.Stands t u) (other : s.Stands t v)
    (ends : ∀ name location, u ≠ ⟨[], .reference name location⟩)
    (ends' : ∀ name location, v ≠ ⟨[], .reference name location⟩) : u = v := by
  induction stands with
  | @self t =>
    cases other with
    | self => rfl
    | reference => exact absurd rfl (ends _ _)
  | reference defined _ ih =>
    cases other with
    | self => exact absurd rfl (ends' _ _)
    | reference defined' further =>
      rw [defined] at defined'
      cases defined'
      exact ih further ends

theorem stands_iff_subject (resolved : s.Resolved) (known : s.Known t.base)
    (ends : ∀ name location, u ≠ ⟨[], .reference name location⟩) : s.Stands t u ↔ s.subject t = u := by
  obtain ⟨stands, last⟩ := stands_subject resolved known
  exact ⟨fun other => stands.unique other last ends, fun same => same ▸ stands⟩

theorem subject_of_ends (resolved : s.Resolved) (known : s.Known t.base)
    (ends : ∀ name location, t ≠ ⟨[], .reference name location⟩) : s.subject t = t :=
  (stands_iff_subject resolved known ends).mp .self

theorem encodable_iff (resolved : s.Resolved) (known : s.Known t.base) : s.Encodable t ↔
    (∃ kind ∈ restKinds, s.subject t = .primitive kind) ∨ ∃ e, s.subject t = .ofBase (.enum e) := by
  have ends : ∀ base, (∀ name location, base ≠ .reference name location) →
      (s.Stands t ⟨[], base⟩ ↔ s.subject t = ⟨[], base⟩) := fun base other =>
    stands_iff_subject resolved known fun name location same =>
      other name location (congrArg TypeUse.base same)
  simp [Encodable, TypeUse.primitive, TypeUse.ofBase, ends]

theorem is_optional_iff : t.isOptional = true ↔ ∃ rest base, t = ⟨.optional :: rest, base⟩ := by
  obtain ⟨suffixes, base⟩ := t
  rcases suffixes with - | ⟨suffix, rest⟩
  · simp [TypeUse.isOptional]
  · cases suffix <;> simp [TypeUse.isOptional]

theorem nullable_of_optional (optional : t.isOptional = true) : s.Nullable t := by
  obtain ⟨rest, base, rfl⟩ := is_optional_iff.mp optional
  exact ⟨rest, base, .self⟩

theorem nullable_iff (resolved : s.Resolved) (known : s.Known t.base) :
    s.Nullable t ↔ (s.subject t).isOptional = true := by
  have ends : ∀ rest base, s.Stands t ⟨.optional :: rest, base⟩ ↔
      s.subject t = ⟨.optional :: rest, base⟩ := fun rest base =>
    stands_iff_subject resolved known nofun
  simp only [Nullable, ends, is_optional_iff]

theorem Encodable.not_nullable (encodable : s.Encodable t) : ¬ s.Nullable t := by
  rintro ⟨rest, base, optional⟩
  rcases encodable with ⟨kind, _, stands⟩ | ⟨e, stands⟩
  · cases stands.unique optional (primitive_ends kind) nofun
  · cases stands.unique optional nofun nofun

end Ends

section Checks

variable {args : List Field} {o : Operation} {m : RestMapping} {location : Location} {name : String}

theorem arg_of_find {arg : Field} (found : args.find? (·.name == name) = some arg) :
    arg ∈ args ∧ arg.name = name :=
  ⟨List.mem_of_find?_eq_some found, by simpa using List.find?_some found⟩

theorem required_of_not_optional (plain : t.isOptional = false) : required t = t := by
  obtain ⟨suffixes, base⟩ := t
  rcases suffixes with - | ⟨suffix, rest⟩
  · rfl
  · cases suffix with
    | optional => cases plain
    | array => rfl

theorem is_primitive_iff {kind : Primitive} : t.isPrimitive kind = true ↔ t = .primitive kind := by
  obtain ⟨suffixes, base⟩ := t
  simp [TypeUse.isPrimitive, TypeUse.primitive, TypeUse.ofBase]

theorem subject_of_unwrap (unwrapped : s.unwrap t = .ok u) : s.subject t = u := by
  rw [subject, unwrapped]

theorem rest_type_iff (resolved : s.Resolved) (known : s.Known t.base) :
    s.isRestType t = .ok true ↔ s.Encodable t := by
  obtain ⟨u, unwrapped⟩ := unwrap_ok fun name location same => resolved name location (same ▸ known)
  rw [encodable_iff resolved known, subject_of_unwrap unwrapped, isRestType, unwrapped]
  obtain ⟨suffixes, base⟩ := u
  cases suffixes with
  | nil => cases base <;> simp [TypeUse.primitive, TypeUse.ofBase]
  | cons => simp [TypeUse.primitive, TypeUse.ofBase]

theorem check_variable_iff (resolved : s.Resolved) (known : ∀ arg ∈ args, s.Known arg.type.base) :
    s.checkRestVariable args m location name = .ok () ↔
      ∃ arg, args.find? (·.name == name) = some arg ∧
        (name ∈ m.pathVariables → arg.type.isOptional = false) ∧ s.Encodable (required arg.type) := by
  unfold checkRestVariable
  cases found : args.find? (·.name == name) with
  | none => simp [refuse]
  | some arg =>
    have suited : s.Known (required arg.type).base := by
      rw [required_base]
      exact known arg (arg_of_find found).1
    simp only [Option.some.injEq, exists_eq_left', ← rest_type_iff resolved suited]
    obtain ⟨answer, asked⟩ := rest_type_ok resolved suited
    rw [asked]
    cases inPath : m.pathVariables.contains name && arg.type.isOptional with
    | true =>
      obtain ⟨listed, optional⟩ := Bool.and_eq_true_iff.mp inPath
      simp [refuse, List.contains_iff_mem.mp listed, optional]
    | false =>
      have plain : name ∈ m.pathVariables → arg.type.isOptional = false := fun member => by
        simpa [member] using inPath
      cases answer with
      | true => exact ⟨fun _ => ⟨plain, rfl⟩, fun _ => rfl⟩
      | false => simp [refuse, bind, Except.bind]

theorem unless_refused_iff {asked : Bool} {fault : SemanticError} {next : Checked Unit} :
    (if asked then refuse fault else next) = .ok () ↔ asked = false ∧ next = .ok () := by
  cases asked <;> simp [refuse]

theorem check_argument_iff {names : List String} {arg : Field} :
    checkRestArgument m names location arg = .ok () ↔
      (arg.name ∈ names ∨ m.bodyVariable = some arg.name) ∧
        (m.method = "GET" → arg.secret = true →
          arg.name ∉ m.pathVariables ∧ arg.name ∉ m.queryVariables) := by
  rw [checkRestArgument, unless_refused_iff, unless_refused_iff]
  simp only [and_true]
  refine and_congr ?_ ?_
  · simp [or_iff_not_imp_left]
  · simp

theorem args_known (member : o ∈ s.operations) : ∀ arg ∈ o.args.map s.field, s.Known arg.type.base := by
  intro arg listed
  obtain ⟨id, held, rfl⟩ := List.mem_map.mp listed
  exact known_of_declares (.argument member (.inr held))

theorem check_rest_iff (resolved : s.Resolved) (member : o ∈ s.operations) :
    s.checkRest o m location = .ok () ↔ s.Admits (o.args.map s.field) o.returns m := by
  rw [check_rest_ok, has_repeats_iff]
  simp only [check_variable_iff resolved (args_known member), check_argument_iff]
  constructor
  · intro passed
    obtain ⟨once, suitable, body, bound, returns⟩ := passed
    refine ⟨once, suitable, fun name bound => by simpa using body name bound,
      fun arg member => (bound arg member).1, fun get arg member => (bound arg member).2 get, ?_⟩
    intro get nothing
    rw [get, is_primitive_iff.mpr nothing] at returns
    cases returns
  · intro admits
    refine ⟨admits.once, admits.suited, fun name bound => by simpa using admits.body name bound,
      fun arg member => ⟨admits.bound arg member, fun get => admits.secrets get arg member⟩, ?_⟩
    by_contra refused
    obtain ⟨get, nothing⟩ := Bool.and_eq_true_iff.mp (eq_true_of_ne_false refused)
    exact admits.answers (by simpa using get) (is_primitive_iff.mp nothing)

end Checks

end Schema

/-! Mappings of operations whose types are written in another way, as references or in the place of
references. The check judges both alike, unless one of them hides an optional from it that is taken from
a query or a header, or a result that is nothing. -/

/-- Bases that are written alike; structs and enums may differ in what they hold. -/
inductive TypeBase.Similar : TypeBase → TypeBase → Prop where
  | primitive {kind} : Similar (.primitive kind) (.primitive kind)
  | reference {name location location'} :
    Similar (.reference name location) (.reference name location')
  | struct {t t'} : Similar (.struct t) (.struct t')
  | enum {e e'} : Similar (.enum e) (.enum e')

structure TypeUse.Similar (t t' : TypeUse) : Prop where
  suffixes : t.suffixes = t'.suffixes
  base : t.base.Similar t'.base

namespace TypeUse.Similar

variable {t t' : TypeUse}

theorem ends (similar : t.Similar t') (ends : ∀ name location, t ≠ ⟨[], .reference name location⟩) :
    ∀ name location, t' ≠ ⟨[], .reference name location⟩ := by
  rintro name location rfl
  obtain ⟨suffixes, base⟩ := t
  obtain ⟨rfl, similar⟩ := similar
  cases similar
  exact ends _ _ rfl

theorem primitive_iff (similar : t.Similar t') {kind : Primitive} :
    t = .primitive kind ↔ t' = .primitive kind := by
  obtain ⟨suffixes, base⟩ := t
  obtain ⟨suffixes', base'⟩ := t'
  obtain ⟨rfl, similar⟩ := similar
  cases similar <;> simp [TypeUse.primitive, TypeUse.ofBase]

theorem enum_iff (similar : t.Similar t') : (∃ e, t = .ofBase (.enum e)) ↔ ∃ e, t' = .ofBase (.enum e) := by
  obtain ⟨suffixes, base⟩ := t
  obtain ⟨suffixes', base'⟩ := t'
  obtain ⟨rfl, similar⟩ := similar
  cases similar <;> simp [TypeUse.ofBase]

theorem required (similar : t.Similar t') : (Schema.required t).Similar (Schema.required t') := by
  obtain ⟨suffixes, base⟩ := t
  obtain ⟨suffixes', base'⟩ := t'
  obtain ⟨rfl, similar⟩ := similar
  rcases suffixes with - | ⟨suffix, rest⟩
  · exact ⟨rfl, similar⟩
  · cases suffix <;> exact ⟨rfl, similar⟩

end TypeUse.Similar

namespace Schema

def Annotated (ready : Schema) : Prop := ∃ s expanded : Schema, s.Submitted ∧ s.expanded = .ok expanded ∧
  expanded.checkEmptiness = .ok () ∧ expanded.checkRecursions = .ok () ∧ ready = expanded.collectTypes

/-- A type in the place of another one. If they are not similar, one is a reference to a definition of
what is similar to the other. -/
inductive Retyped (s s' : Schema) : TypeUse → TypeUse → Prop where
  | similar {t t'} (similar : t.Similar t') : Retyped s s' t t'
  | named {t name location d} (defined : s'.definition? name = some d) (similar : t.Similar d.type) :
    Retyped s s' t ⟨[], .reference name location⟩
  | inlined {t' name location d} (defined : s.definition? name = some d) (similar : d.type.Similar t') :
    Retyped s s' ⟨[], .reference name location⟩ t'

def Defines (s s' : Schema) : Prop := ∀ name d, s.definition? name = some d →
  ∃ d', s'.definition? name = some d' ∧ d.type.Similar d'.type

structure Retypes (s s' : Schema) (o o' : Operation) : Prop where
  args : List.Forall₂ (fun f f' => f.name = f'.name ∧ f.secret = f'.secret ∧ s.Retyped s' f.type f'.type)
    (o.args.map s.field) (o'.args.map s'.field)
  returns : s.Retyped s' o.returns o'.returns

/-- The type can be taken from a query or a header, whatever names it is written with. -/
def Suited (s : Schema) (t : TypeUse) : Prop := s.Encodable (required (s.subject t))

structure Suits (s : Schema) (args : List Field) (m : RestMapping) : Prop where
  once : m.variables.Nodup
  suited : ∀ name ∈ m.variables, ∃ arg, args.find? (·.name == name) = some arg ∧
    (name ∈ m.pathVariables → ¬ s.Nullable arg.type) ∧ s.Suited arg.type
  body : ∀ name, m.bodyVariable = some name → ∃ arg ∈ args, arg.name = name
  bound : ∀ arg ∈ args, arg.name ∈ m.variables ∨ m.bodyVariable = some arg.name
  secrets : m.method = "GET" → ∀ arg ∈ args, arg.secret = true →
    arg.name ∉ m.pathVariables ∧ arg.name ∉ m.queryVariables

/-- An argument of the query or of a header is optional by an alias alone. -/
def HidesOptional (s : Schema) (args : List Field) (m : RestMapping) : Prop :=
  ∃ name ∈ m.queryVariables ++ m.headerVariables, ∃ arg, args.find? (·.name == name) = some arg ∧
    s.Nullable arg.type ∧ arg.type.isOptional = false

/-- A type is nothing by an alias alone. -/
def HidesVoid (s : Schema) (t : TypeUse) : Prop :=
  s.Stands t (.primitive .void) ∧ t ≠ .primitive .void

variable {s s' : Schema} {t t' u u' : TypeUse} {args args' : List Field} {m : RestMapping}

theorem Annotated.resolved (ready : s.Annotated) : s.Resolved := by
  obtain ⟨before, expanded, submitted, spread, _, recursions, rfl⟩ := ready
  exact collect_resolved
    (resolved_of_bound (bound_of_expanded submitted.grounded.add_fatal spread) recursions)

section Ends

variable (defines : s.Defines s')

include defines

theorem stands_similar (similar : t.Similar t') (stands : s.Stands t u) :
    ∃ u', s'.Stands t' u' ∧ u.Similar u' := by
  induction stands generalizing t' with
  | self => exact ⟨t', .self, similar⟩
  | @reference name location d u defined _ ih =>
    obtain ⟨suffixes, base⟩ := t'
    obtain ⟨rfl, similar⟩ := similar
    cases similar
    obtain ⟨d', defined', further⟩ := defines name d defined
    obtain ⟨u', stands', same⟩ := ih further
    exact ⟨u', .reference defined' stands', same⟩

theorem Retyped.stands (retyped : s.Retyped s' t t') (stands : s.Stands t u)
    (ends : ∀ name location, u ≠ ⟨[], .reference name location⟩) :
    ∃ u', s'.Stands t' u' ∧ u.Similar u' := by
  cases retyped with
  | similar similar => exact stands_similar defines similar stands
  | named defined similar =>
    obtain ⟨u', stands', same⟩ := stands_similar defines similar stands
    exact ⟨u', .reference defined stands', same⟩
  | inlined defined similar =>
    cases stands with
    | self => exact absurd rfl (ends _ _)
    | reference defined' further =>
      rw [defined] at defined'
      cases defined'
      exact stands_similar defines similar further

variable (resolved : s.Resolved) (resolved' : s'.Resolved) (known : s.Known t.base)
  (known' : s'.Known t'.base)

include resolved resolved' known known'

theorem Retyped.subject (retyped : s.Retyped s' t t') : (s.subject t).Similar (s'.subject t') := by
  obtain ⟨stands, ends⟩ := stands_subject resolved known
  obtain ⟨u', stands', similar⟩ := retyped.stands defines stands ends
  rwa [(stands_iff_subject resolved' known' (similar.ends ends)).mp stands']

theorem Retyped.nullable_iff (retyped : s.Retyped s' t t') : s.Nullable t ↔ s'.Nullable t' := by
  have similar := retyped.subject defines resolved resolved' known known'
  rw [Schema.nullable_iff resolved known, Schema.nullable_iff resolved' known', TypeUse.isOptional,
    TypeUse.isOptional, similar.suffixes]

theorem Retyped.encodable_iff (retyped : s.Retyped s' t t') : s.Encodable t ↔ s'.Encodable t' := by
  have similar := retyped.subject defines resolved resolved' known known'
  simp only [Schema.encodable_iff resolved known, Schema.encodable_iff resolved' known',
    similar.primitive_iff, similar.enum_iff]

theorem Retyped.void_iff (retyped : s.Retyped s' t t') :
    s.Stands t (.primitive .void) ↔ s'.Stands t' (.primitive .void) := by
  have similar := retyped.subject defines resolved resolved' known known'
  rw [stands_iff_subject resolved known (primitive_ends .void),
    stands_iff_subject resolved' known' (primitive_ends .void), similar.primitive_iff]

theorem Retyped.suited_iff (retyped : s.Retyped s' t t') : s.Suited t ↔ s'.Suited t' := by
  have similar := retyped.subject defines resolved resolved' known known'
  have inside := (stands_subject resolved known).1.known known
  have inside' := (stands_subject resolved' known').1.known known'
  rw [← required_base] at inside inside'
  exact (Retyped.similar similar.required).encodable_iff defines resolved resolved' inside inside'

end Ends

structure SameBehind (s s' : Schema) (f f' : Field) : Prop where
  name : f.name = f'.name
  secret : f.secret = f'.secret
  nullable : s.Nullable f.type ↔ s'.Nullable f'.type
  suited : s.Suited f.type ↔ s'.Suited f'.type

theorem Suits.of_same (suits : s.Suits args m) (same : List.Forall₂ (s.SameBehind s') args args') :
    s'.Suits args' m where
  once := suits.once
  suited name taken := by
    obtain ⟨arg, found, plain, suited⟩ := suits.suited name taken
    obtain ⟨arg', found', both⟩ := exists_of_rel
      (find_rel same fun f f' both => by rw [both.name]) found
    exact ⟨arg', found', fun inPath => mt both.nullable.mpr (plain inPath), both.suited.mp suited⟩
  body name bound := by
    obtain ⟨arg, listed, rfl⟩ := suits.body name bound
    obtain ⟨arg', listed', both⟩ := exists_right same listed
    exact ⟨arg', listed', both.name.symm⟩
  bound arg' listed' := by
    obtain ⟨arg, listed, both⟩ := exists_left same listed'
    exact both.name ▸ suits.bound arg listed
  secrets get arg' listed' secret := by
    obtain ⟨arg, listed, both⟩ := exists_left same listed'
    exact both.name ▸ suits.secrets get arg listed (both.secret.trans secret)

theorem SameBehind.symm {f f' : Field} (same : s.SameBehind s' f f') : s'.SameBehind s f' f :=
  ⟨same.name.symm, same.secret.symm, same.nullable.symm, same.suited.symm⟩

theorem suits_iff_of_same (same : List.Forall₂ (s.SameBehind s') args args') :
    s.Suits args m ↔ s'.Suits args' m :=
  ⟨fun suits => suits.of_same same,
    fun suits => suits.of_same (same.flip.imp fun _ _ both => both.symm)⟩

section Hidden

variable {returns : TypeUse} (resolved : s.Resolved)

include resolved

theorem encodable_required_iff (known : s.Known t.base) :
    s.Encodable (required t) ↔ s.Suited t ∧ ¬ (s.Nullable t ∧ t.isOptional = false) := by
  obtain ⟨stands, ends⟩ := stands_subject resolved known
  cases optional : t.isOptional with
  | true =>
    have own : s.subject t = t := by
      refine subject_of_ends resolved known ?_
      rintro name location rfl
      cases optional
    simp [Suited, own]
  | false =>
    rw [required_of_not_optional optional, nullable_iff resolved known]
    cases behind : (s.subject t).isOptional with
    | true =>
      refine iff_of_false (fun encodable => ?_) (by simp)
      exact encodable.not_nullable ((nullable_iff resolved known).mpr behind)
    | false =>
      have further := subject_of_ends resolved (stands.known known) ends
      rw [Suited, required_of_not_optional behind, encodable_iff resolved known,
        encodable_iff resolved (stands.known known), further]
      simp

/-- What the check asks for beyond the types behind names: no optional is hidden where one may stand,
and a result that is nothing is not written so. -/
theorem admits_iff_suits (known : ∀ arg ∈ args, s.Known arg.type.base) : s.Admits args returns m ↔
    s.Suits args m ∧ ¬ s.HidesOptional args m ∧ (m.method = "GET" → returns ≠ .primitive .void) := by
  have judged : ∀ {name arg}, args.find? (·.name == name) = some arg → (s.Encodable (required arg.type) ↔
      s.Suited arg.type ∧ ¬ (s.Nullable arg.type ∧ arg.type.isOptional = false)) := fun found =>
    encodable_required_iff resolved (known _ (arg_of_find found).1)
  constructor
  · intro admits
    refine ⟨⟨admits.once, fun name taken => ?_, admits.body, admits.bound, admits.secrets⟩, ?_,
      admits.answers⟩
    · obtain ⟨arg, found, plain, encodable⟩ := admits.suited name taken
      obtain ⟨suited, clear⟩ := (judged found).mp encodable
      exact ⟨arg, found, fun inPath null => clear ⟨null, plain inPath⟩, suited⟩
    · rintro ⟨name, taken, arg, found, hidden⟩
      obtain ⟨arg', found', _, encodable⟩ := admits.suited name (by
        simpa [RestMapping.variables, or_assoc] using .inr (by simpa using taken))
      rw [found] at found'
      cases found'
      exact ((judged found).mp encodable).2 hidden
  · rintro ⟨suits, clear, answers⟩
    refine ⟨suits.once, fun name taken => ?_, suits.body, suits.bound, suits.secrets, answers⟩
    obtain ⟨arg, found, plain, suited⟩ := suits.suited name taken
    refine ⟨arg, found, fun inPath => ?_, (judged found).mpr ⟨suited, fun hidden => ?_⟩⟩
    · exact eq_false_of_ne_true fun optional => plain inPath (nullable_of_optional optional)
    · by_cases inPath : name ∈ m.pathVariables
      · exact plain inPath hidden.1
      · exact clear ⟨name, by simpa [RestMapping.variables, inPath] using taken, arg, found, hidden⟩

end Hidden

section Operations

variable {o o' : Operation}

theorem Retypes.same_behind (retypes : s.Retypes s' o o') (defines : s.Defines s')
    (resolved : s.Resolved) (resolved' : s'.Resolved) (member : o ∈ s.operations)
    (member' : o' ∈ s'.operations) :
    List.Forall₂ (s.SameBehind s') (o.args.map s.field) (o'.args.map s'.field) := by
  refine forall_of_mem retypes.args fun f listed f' listed' same => ?_
  obtain ⟨name, secret, retyped⟩ := same
  have known := args_known member f listed
  have known' := args_known member' f' listed'
  exact ⟨name, secret, retyped.nullable_iff defines resolved resolved' known known',
    retyped.suited_iff defines resolved resolved' known known'⟩

theorem check_rest_iff_suits (resolved : s.Resolved) (member : o ∈ s.operations) (location : Location) :
    s.checkRest o m location = .ok () ↔ s.Suits (o.args.map s.field) m ∧
      ¬ s.HidesOptional (o.args.map s.field) m ∧ (m.method = "GET" → o.returns ≠ .primitive .void) := by
  rw [check_rest_iff resolved member, admits_iff_suits resolved (args_known member)]

theorem void_iff_not_hidden :
    t = .primitive .void ↔ s.Stands t (.primitive .void) ∧ ¬ s.HidesVoid t := by
  constructor
  · rintro rfl
    exact ⟨.self, fun hidden => hidden.2 rfl⟩
  · rintro ⟨stands, clear⟩
    by_contra other
    exact clear ⟨stands, other⟩

/-- Types of arguments and results can be written as references to definitions of them, or in the place
of such references, without changing what the check of a mapping says, unless that hides an optional of
the query or of a header, or that a `GET` answers nothing. Hidden optionals are refused, and of a result
that is nothing by an alias the check makes as much as of any other result. -/
theorem retyping_judged (ready : s.Annotated) (ready' : s'.Annotated) (defines : s.Defines s')
    (member : o ∈ s.operations) (member' : o' ∈ s'.operations) (retypes : s.Retypes s' o o')
    (location location' : Location) :
    ((s.HidesOptional (o.args.map s.field) m ↔ s'.HidesOptional (o'.args.map s'.field) m) →
      (m.method = "GET" → (s.HidesVoid o.returns ↔ s'.HidesVoid o'.returns)) →
        (s.checkRest o m location = .ok () ↔ s'.checkRest o' m location' = .ok ())) ∧
    (s.HidesOptional (o.args.map s.field) m → s.checkRest o m location ≠ .ok ()) ∧
    (m.method = "GET" → o.returns = .primitive .void → s.checkRest o m location ≠ .ok ()) ∧
    (s.HidesVoid o.returns → (s.checkRest o m location = .ok () ↔
      s.checkRest { o with returns := .primitive .bool } m location = .ok ())) := by
  have resolved := ready.resolved
  have resolved' := ready'.resolved
  have suits := suits_iff_of_same (m := m)
    (retypes.same_behind defines resolved resolved' member member')
  have nothing := retypes.returns.void_iff defines resolved resolved'
    (known_of_declares (.returns member)) (known_of_declares (.returns member'))
  have judged := check_rest_iff_suits (m := m) resolved member location
  have judged' := check_rest_iff_suits (m := m) resolved' member' location'
  refine ⟨fun optionals voids => ?_, fun hidden passed => (judged.mp passed).2.1 hidden,
    fun get void passed => (judged.mp passed).2.2 get void, fun hidden => ?_⟩
  · have answers : (m.method = "GET" → o.returns ≠ .primitive .void) ↔
        (m.method = "GET" → o'.returns ≠ .primitive .void) := by
      refine forall_congr' fun get => not_congr ?_
      rw [void_iff_not_hidden, void_iff_not_hidden, nothing, voids get]
    rw [judged, judged', suits, optionals, answers]
  · have written : o.returns.isPrimitive .void = false :=
      eq_false_of_ne_true fun void => hidden.2 (is_primitive_iff.mp void)
    have other : (TypeUse.primitive .bool).isPrimitive .void = false := by decide
    rw [check_rest_ok, check_rest_ok, written, other]

theorem not_hides_void_primitive {kind : Primitive} : ¬ s.HidesVoid (.primitive kind) :=
  fun hidden => hidden.2 (Stands.self.unique hidden.1 (primitive_ends kind) (primitive_ends .void))

theorem annotated_of_some {source : String} {final : Schema} (found : analysed? source = some final) :
    final.Annotated := by
  obtain ⟨tree, _, accepted⟩ := Option.bind_eq_some_iff.mp found
  obtain ⟨expanded, spread, completed⟩ := expanded_of_analyse (ok_of_to_option accepted)
  obtain ⟨emptiness, recursions, collected, _⟩ := eq_collect_of_completed completed
  exact ⟨_, expanded, .tree tree, spread, emptiness, recursions, collected⟩

def keyed : RestMapping := ⟨"GET", "/a/\x7bid\x7d", ["id"], [], [], none⟩

theorem key_retyped : ∃ s s' o o', analysed? "fn f(id: uuid): int" = some s ∧
    analysed? "type Id uuid\nfn f(id: Id): int" = some s' ∧ o ∈ s.operations ∧ o' ∈ s'.operations ∧
      s.Retypes s' o o' ∧ s'.checkRest o' keyed {} = .ok () := by
  have checked : (analysed? "fn f(id: uuid): int").map (fun s => decide (s.definitions = [] ∧
      s.operations.map (·.returns) = [.primitive .int] ∧
      (s.operations.flatMap (·.args)).map (fun id =>
        ((s.field id).name, (s.field id).secret, (s.field id).type)) = [("id", false, .primitive .uuid)] ∧
      s.operations.all fun o => (s.checkRest o keyed {}).isOk)) = some true := by
    simp only [analysed?, SchemaTree.parse_by_chars]
    decide +kernel
  have checked' : (analysed? "type Id uuid\nfn f(id: Id): int").map (fun s => decide (
      (s.definition? "Id").map (·.type) = some (.primitive .uuid) ∧
      s.operations.map (·.returns) = [.primitive .int] ∧
      (s.operations.flatMap (·.args)).map (fun id =>
        ((s.field id).name, (s.field id).secret, (s.field id).type)) =
          [("id", false, ⟨[], .reference "Id" ⟨"-", 2, 10⟩⟩)])) = some true := by
    simp only [analysed?, SchemaTree.parse_by_chars]
    decide +kernel
  obtain ⟨s, found, same⟩ := Option.map_eq_some_iff.mp checked
  obtain ⟨s', found', same'⟩ := Option.map_eq_some_iff.mp checked'
  obtain ⟨undefined, returns, args, passed⟩ := of_decide_eq_true same
  obtain ⟨defined, returns', args'⟩ := of_decide_eq_true same'
  obtain ⟨o, only, result⟩ := List.map_eq_singleton_iff.mp returns
  obtain ⟨o', only', result'⟩ := List.map_eq_singleton_iff.mp returns'
  obtain ⟨d, named, type⟩ := Option.map_eq_some_iff.mp defined
  simp only [only, only', List.flatMap_cons, List.flatMap_nil, List.append_nil] at args args' passed
  obtain ⟨id, single, field⟩ := List.map_eq_singleton_iff.mp args
  obtain ⟨id', single', field'⟩ := List.map_eq_singleton_iff.mp args'
  obtain ⟨name, secret, uuid⟩ := by simpa using field
  obtain ⟨name', secret', key⟩ := by simpa using field'
  have defines : s.Defines s' := fun name d found => by simp [definition?, undefined] at found
  have retypes : s.Retypes s' o o' := by
    refine ⟨?_, ?_⟩
    · rw [single, single']
      refine .cons ⟨name.trans name'.symm, secret.trans secret'.symm, ?_⟩ .nil
      rw [uuid, key]
      exact .named named (by rw [type]; exact ⟨rfl, .primitive⟩)
    · rw [result, result']
      exact .similar ⟨rfl, .primitive⟩
  have member : o ∈ s.operations := by simp [only]
  have member' : o' ∈ s'.operations := by simp [only']
  obtain ⟨transparent, _⟩ := retyping_judged (m := keyed) (annotated_of_some found)
    (annotated_of_some found') defines member member' retypes {} {}
  refine ⟨s, s', o, o', found, found', member, member', retypes, (transparent ?_ fun _ => ?_).mp ?_⟩
  · simp [HidesOptional, keyed, RestMapping.headerVariables]
  · rw [result, result']
    exact iff_of_false not_hides_void_primitive not_hides_void_primitive
  · obtain ⟨_, accepted⟩ := exists_of_is_ok (by simpa using passed)
    exact accepted

/-- A `GET` may answer nothing if that has a name, and a query takes no optional that has one. -/
theorem hidden_types_judged :
    (analysed? "type V void\n@rest GET /p\nfn f(): V").isSome = true ∧
    (SchemaTree.parse ⟨[], []⟩ "-" "@rest GET /p\nfn f(): void").toOption.map (fun tree =>
      (ofTree tree).analyse) = some (refuse (.restReturnsNothing ⟨"-", 1, 1⟩)) ∧
    (SchemaTree.parse ⟨[], []⟩ "-" "type M int?\n@rest GET /p?\x7bx\x7d\nfn f(x: M): int").toOption.map
      (fun tree => (ofTree tree).analyse) = some (refuse (.restUnsuitable "x" "M" ⟨"-", 2, 1⟩)) ∧
    (analysed? "@rest GET /p?\x7bx\x7d\nfn f(x: int?): int").isSome = true := by
  simp only [analysed?, SchemaTree.parse_by_chars]
  decide +kernel

end Operations

end Schema

end ApiSchema
