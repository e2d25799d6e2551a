import ApiSchema.Proofs.Analysis.Aliases
import ApiSchema.Proofs.Analysis.Naming
import ApiSchema.Proofs.Analysis.Redeclaration

/-! Schemas of like declarations, with the definitions in any order: what lies behind the declarations
of one of them is of the shape of something behind those of the other. -/

namespace ApiSchema.Schema

structure TypeAlike (s s' : Schema) (t t' : TypeUse) : Prop where
  suffixes : t.suffixes = t'.suffixes
  base : s.Resembles s' t.base t'.base

structure DefinitionAlike (s s' : Schema) (d d' : Definition) : Prop where
  name : d.name = d'.name
  type : s.TypeAlike s' d.type d'.type

structure ErrorAlike (s s' : Schema) (e e' : ErrorKind) : Prop where
  name : e.name = e'.name
  data : s.TypeAlike s' e.data e'.data
  notes : e.notes = e'.notes

structure OperationAlike (s s' : Schema) (o o' : Operation) : Prop where
  name : o.name = o'.name
  members : List.Forall₂ (s.MemberResembles s') o.members o'.members
  args : List.Forall₂ (fun id id' => s.FieldResembles s' (s.field id) (s'.field id')) o.args o'.args
  returns : s.TypeAlike s' o.returns o'.returns
  notes : o.notes = o'.notes

/-- Two schemas of like declarations. Each definition has one like it, the first definitions of a name
are alike, and errors and operations stand in the same order. -/
structure Alike (s s' : Schema) : Prop where
  count : s.definitions.length = s'.definitions.length
  bound : s.nestingBound = s'.nestingBound
  left : ∀ d ∈ s.definitions, ∃ d' ∈ s'.definitions, s.DefinitionAlike s' d d' ∧ d.notes = d'.notes
  right : ∀ d' ∈ s'.definitions, ∃ d ∈ s.definitions, s.DefinitionAlike s' d d' ∧ d.notes = d'.notes
  first : ∀ name, Option.Rel (s.DefinitionAlike s') (s.definition? name) (s'.definition? name)
  errors : List.Forall₂ (s.ErrorAlike s') s.errors s'.errors
  operations : List.Forall₂ (s.OperationAlike s') s.operations s'.operations

variable {s s' s'' : Schema}

theorem TypeAlike.symm {t t' : TypeUse} (alike : s.TypeAlike s' t t') : s'.TypeAlike s t' t :=
  ⟨alike.suffixes.symm, alike.base.symm⟩

theorem TypeAlike.trans {t t' t'' : TypeUse} (first : s.TypeAlike s' t t')
    (second : s'.TypeAlike s'' t' t'') : s.TypeAlike s'' t t'' :=
  ⟨first.suffixes.trans second.suffixes, first.base.trans second.base⟩

theorem TypeAlike.alias {name : String} {location : Location} {t : TypeUse}
    (alike : s.TypeAlike s' ⟨[], .reference name location⟩ t) :
    ∃ location', t = ⟨[], .reference name location'⟩ := by
  obtain ⟨suffixes, base⟩ := t
  obtain ⟨same, behind⟩ := alike
  cases same
  obtain ⟨location', rfl⟩ := behind.reference
  exact ⟨location', rfl⟩

theorem DefinitionAlike.symm {d d' : Definition} (alike : s.DefinitionAlike s' d d') :
    s'.DefinitionAlike s d' d :=
  ⟨alike.name.symm, alike.type.symm⟩

theorem DefinitionAlike.trans {d d' d'' : Definition} (first : s.DefinitionAlike s' d d')
    (second : s'.DefinitionAlike s'' d' d'') : s.DefinitionAlike s'' d d'' :=
  ⟨first.name.trans second.name, first.type.trans second.type⟩

theorem ErrorAlike.symm {e e' : ErrorKind} (alike : s.ErrorAlike s' e e') : s'.ErrorAlike s e' e :=
  ⟨alike.name.symm, alike.data.symm, alike.notes.symm⟩

theorem ErrorAlike.trans {e e' e'' : ErrorKind} (first : s.ErrorAlike s' e e')
    (second : s'.ErrorAlike s'' e' e'') : s.ErrorAlike s'' e e'' :=
  ⟨first.name.trans second.name, first.data.trans second.data, first.notes.trans second.notes⟩

theorem OperationAlike.symm {o o' : Operation} (alike : s.OperationAlike s' o o') :
    s'.OperationAlike s o' o where
  name := alike.name.symm
  members := (alike.members.imp fun _ _ => MemberResembles.symm).flip
  args := (alike.args.imp fun _ _ => FieldResembles.symm).flip
  returns := alike.returns.symm
  notes := alike.notes.symm

theorem OperationAlike.trans {o o' o'' : Operation} (first : s.OperationAlike s' o o')
    (second : s'.OperationAlike s'' o' o'') : s.OperationAlike s'' o o'' where
  name := first.name.trans second.name
  members := forall_trans first.members second.members fun _ _ _ => .trans
  args := forall_trans first.args second.args fun _ _ _ => .trans
  returns := first.returns.trans second.returns
  notes := first.notes.trans second.notes

namespace Alike

theorem symm (alike : s.Alike s') : s'.Alike s where
  count := alike.count.symm
  bound := alike.bound.symm
  left d member := by
    obtain ⟨d', member', same, notes⟩ := alike.right d member
    exact ⟨d', member', same.symm, notes.symm⟩
  right d member := by
    obtain ⟨d', member', same, notes⟩ := alike.left d member
    exact ⟨d', member', same.symm, notes.symm⟩
  first name := rel_mono (rel_flip (alike.first name)) fun _ _ => DefinitionAlike.symm
  errors := (alike.errors.imp fun _ _ => ErrorAlike.symm).flip
  operations := (alike.operations.imp fun _ _ => OperationAlike.symm).flip

theorem trans (alike : s.Alike s') (further : s'.Alike s'') : s.Alike s'' where
  count := alike.count.trans further.count
  bound := alike.bound.trans further.bound
  left d member := by
    obtain ⟨d', member, same, notes⟩ := alike.left d member
    obtain ⟨d'', member, same', notes'⟩ := further.left d' member
    exact ⟨d'', member, same.trans same', notes.trans notes'⟩
  right d member := by
    obtain ⟨d', member, same, notes⟩ := further.right d member
    obtain ⟨d'', member, same', notes'⟩ := alike.right d' member
    exact ⟨d'', member, same'.trans same, notes'.trans notes⟩
  first name := rel_trans (alike.first name) (further.first name) fun _ _ _ => .trans
  errors := forall_trans alike.errors further.errors fun _ _ _ => .trans
  operations := forall_trans alike.operations further.operations fun _ _ _ => .trans

theorem meanings (alike : s.Alike s') : s.SameMeanings s' :=
  fun name => rel_mono (alike.first name) fun _ _ same => same.type.base

theorem declares (alike : s.Alike s') {base : TypeBase} (declared : s.Declares base) :
    ∃ base', s'.Declares base' ∧ s.Resembles s' base base' := by
  cases declared with
  | definition member =>
    obtain ⟨_, member', same, _⟩ := alike.left _ member
    exact ⟨_, .definition member', same.type.base⟩
  | error member =>
    obtain ⟨_, member', same⟩ := exists_right alike.errors member
    exact ⟨_, .error member', same.data.base⟩
  | argument member held =>
    obtain ⟨_, member', same⟩ := exists_right alike.operations member
    rcases held with written | held
    · obtain ⟨_, written', matched⟩ := exists_right same.members written
      cases matched with
      | field matched => exact ⟨_, .argument member' (.inl written'), matched.base⟩
    · obtain ⟨_, held', matched⟩ := exists_right same.args held
      exact ⟨_, .argument member' (.inr held'), matched.base⟩
  | spread member held =>
    obtain ⟨_, member', same⟩ := exists_right alike.operations member
    obtain ⟨_, held', matched⟩ := exists_right same.members held
    cases matched with
    | spread => exact ⟨_, .spread member' held', fun depth => by simp⟩
  | returns member =>
    obtain ⟨_, member', same⟩ := exists_right alike.operations member
    exact ⟨_, .returns member', same.returns.base⟩

theorem known (alike : s.Alike s') {base : TypeBase} (known : s.Known base) :
    ∃ base', s'.Known base' ∧ s.Resembles s' base base' := by
  refine known.induction (motive := fun base => ∃ base', s'.Known base' ∧ s.Resembles s' base base')
    ?_ ?_
  · intro base declared
    obtain ⟨base', declared', same⟩ := alike.declares declared
    exact ⟨base', known_of_declares declared', same⟩
  · rintro base next ⟨base', known', same⟩ leads
    obtain ⟨next', leads', further⟩ := same.leads alike.meanings leads
    exact ⟨next', known'.reaches (.single leads'), further⟩

theorem called (alike : s.Alike s') {path : List String} {base : TypeBase}
    (called : s.Called path base) : ∃ base', s'.Called path base' ∧ s.Resembles s' base base' := by
  induction called with
  | error member =>
    obtain ⟨_, member', same⟩ := exists_right alike.errors member
    exact ⟨_, same.name ▸ .error member', same.data.base⟩
  | definition member =>
    obtain ⟨_, member', same, _⟩ := alike.left _ member
    exact ⟨_, same.name ▸ .definition member', same.type.base⟩
  | argument member held =>
    obtain ⟨_, member', same⟩ := exists_right alike.operations member
    rcases held with written | held
    · obtain ⟨_, written', matched⟩ := exists_right same.members written
      cases matched with
      | field matched =>
        rw [same.name, matched.name]
        exact ⟨_, .argument member' (.inl written'), matched.base⟩
    · obtain ⟨_, held', matched⟩ := exists_right same.args held
      rw [same.name, matched.name]
      exact ⟨_, .argument member' (.inr held'), matched.base⟩
  | returns member =>
    obtain ⟨_, member', same⟩ := exists_right alike.operations member
    exact ⟨_, same.name ▸ .returns member', same.returns.base⟩
  | inside _ nests ih =>
    obtain ⟨base', called', same⟩ := ih
    obtain ⟨part', nests', further⟩ := same.nests_as nests
    exact ⟨part', called'.inside nests', further⟩

theorem onward (alike : s.Alike s') {name next : String} (link : s.link name = .onward next) :
    s'.link name = .onward next := by
  obtain ⟨d, location, defined, written⟩ := link_onward link
  obtain ⟨d', defined', same⟩ := exists_of_rel (alike.first name) defined
  obtain ⟨location', written'⟩ := (written ▸ same.type).alias
  exact link_of_alias defined' written'

theorem target (alike : s.Alike s') {name : String} {type : TypeUse}
    (link : s.link name = .target type) :
    ∃ d ∈ s.definitions, ∃ d' ∈ s'.definitions, s.DefinitionAlike s' d d' ∧ d.type = type ∧
      s'.link name = .target d'.type := by
  obtain ⟨d, defined, rfl, other⟩ := link_target link
  obtain ⟨d', defined', same⟩ := exists_of_rel (alike.first name) defined
  refine ⟨d, List.mem_of_find?_eq_some defined, d', List.mem_of_find?_eq_some defined', same, rfl, ?_⟩
  refine link_of_type defined' fun next location written' => ?_
  obtain ⟨location', written⟩ := (written' ▸ same.type.symm).alias
  exact other next location' written

theorem chase (alike : s.Alike s') (fuel : Nat) :
    ∀ {name type}, Link.chase s.link fuel name = .target type →
      ∃ d ∈ s.definitions, ∃ d' ∈ s'.definitions, s.DefinitionAlike s' d d' ∧ d.type = type ∧
        Link.chase s'.link fuel name = .target d'.type := by
  induction fuel with
  | zero => nofun
  | succ fuel ih =>
    intro name type found
    simp only [Link.chase] at found ⊢
    split at found
    · cases found
    · next next link =>
      rw [alike.onward link]
      exact ih found
    · next link =>
      cases found
      obtain ⟨d, member, d', member', same, written, link'⟩ := alike.target link
      exact ⟨d, member, d', member', same, written, by rw [link']⟩

theorem resolve (alike : s.Alike s') {name : String} {type : TypeUse}
    (resolved : s.resolve name = .ok type) :
    ∃ d ∈ s.definitions, ∃ d' ∈ s'.definitions, s.DefinitionAlike s' d d' ∧ d.type = type ∧
      s'.resolve name = .ok d'.type := by
  unfold Schema.resolve at resolved ⊢
  rw [← alike.count]
  cases chain : Link.chase s.link (s.definitions.length + 1) name with
  | target found =>
    rw [chain] at resolved
    cases resolved
    obtain ⟨d, member, d', member', same, written, chain'⟩ := alike.chase _ chain
    exact ⟨d, member, d', member', same, written, by rw [chain']; rfl⟩
  | unbound last => rw [chain] at resolved; cases resolved
  | endless => rw [chain] at resolved; cases resolved

end Alike

theorem Names.alike {g : Schema} (named : s.Names g) : s.Alike g := by
  have resembles := named.revises.resembles
  have type : ∀ t t', s.Replaces t t' → s.TypeAlike g t t' := fun t t' replaced =>
    ⟨replaced.suffixes.symm, replaced.base.trans (resembles _)⟩
  have definition : ∀ d d', s.DefinitionReplaces d d' → s.DefinitionAlike g d d' := fun d d' replaced =>
    ⟨replaced.name.symm, type _ _ replaced.type⟩
  have field : ∀ id, s.FieldResembles g (s.field id) (g.field id) := by
    intro id
    obtain ⟨name, suffixes, base, secret, notes⟩ := named.revises.field id
    exact ⟨name, suffixes, base.trans (resembles _), secret, notes⟩
  constructor
  · exact named.definitions.length_eq
  · exact named.revises.nesting_bound.symm
  · intro d member
    obtain ⟨d', member', replaced⟩ := exists_right named.definitions member
    exact ⟨d', member', definition d d' replaced, replaced.notes.symm⟩
  · intro d member
    obtain ⟨d', member', replaced⟩ := exists_left named.definitions member
    exact ⟨d', member', definition d' d replaced, replaced.notes.symm⟩
  · exact fun name => rel_mono (find_replaced named.definitions name) definition
  · exact named.errors.imp fun e e' replaced =>
      ⟨replaced.name.symm, type _ _ replaced.data, replaced.notes.symm⟩
  · refine named.operations.imp fun o o' replaced =>
      ⟨replaced.name.symm, ?_, ?_, type _ _ replaced.returns, replaced.notes.symm⟩
    · rw [replaced.members]
      refine List.forall₂_same.mpr fun m _ => ?_
      cases m with
      | field id => exact .field (field id)
      | spread name nameLocation location => exact .spread
    · rw [replaced.args]
      exact List.forall₂_same.mpr fun id _ => field id

theorem alike_of_perm (grounded : s.Grounded) (passed : s.checkRedeclarations = .ok ())
    {definitions : List Definition} (perm : definitions.Perm s.definitions) :
    s.Alike { s with definitions } := by
  have revises : s.Revises { s with definitions } := (Revises.refl s).redeclare _ _ _
  have resembles := revises.resembles
  have type : ∀ t, s.TypeAlike { s with definitions } t t := fun t => ⟨rfl, resembles _⟩
  have field : ∀ id, s.FieldResembles { s with definitions } (s.field id) (s.field id) :=
    fun id => ⟨rfl, rfl, resembles _, rfl, rfl⟩
  constructor
  · exact perm.length_eq.symm
  · exact revises.nesting_bound.symm
  · exact fun d member => ⟨d, perm.mem_iff.mpr member, ⟨rfl, type _⟩, rfl⟩
  · exact fun d member => ⟨d, perm.mem_iff.mp member, ⟨rfl, type _⟩, rfl⟩
  · intro name
    change Option.Rel _ (s.definitions.find? (·.name == name)) (definitions.find? (·.name == name))
    cases found : s.definitions.find? (·.name == name) with
    | none =>
      rw [List.find?_eq_none] at found
      rw [List.find?_eq_none.mpr fun d member => found d (perm.mem_iff.mp member)]
      exact .none
    | some d =>
      have member := List.mem_of_find?_eq_some found
      have named : d.name = name := by simpa using List.find?_some found
      obtain ⟨d', found'⟩ : ∃ d', definitions.find? (·.name == name) = some d' := by
        rw [← Option.isSome_iff_exists, List.find?_isSome]
        exact ⟨d, perm.mem_iff.mpr member, by simpa using named⟩
      rw [found']
      have member' := perm.mem_iff.mp (List.mem_of_find?_eq_some found')
      have named' : d'.name = name := by simpa using List.find?_some found'
      have same := same_definition_of_name passed member member' (named.trans named'.symm)
      have shallow : ∀ d ∈ s.definitions, ¬ s.Deep s.nestingBound d.type.base := fun d member =>
        acyclic_iff.mp (grounded _ (.definition member))
      refine .some ⟨named.trans named'.symm, same.1, ?_⟩
      exact (resembles_of_shape (shallow d member) (shallow d' member') same.2).trans (resembles _)
  · exact List.forall₂_same.mpr fun e _ => ⟨rfl, type _, rfl⟩
  · refine List.forall₂_same.mpr fun o _ => ⟨rfl, ?_, ?_, type _, rfl⟩
    · refine List.forall₂_same.mpr fun m _ => ?_
      cases m with
      | field id => exact .field (field id)
      | spread name nameLocation location => exact .spread
    · exact List.forall₂_same.mpr fun id _ => field id

/-- Paths of one name lead to one shape in each of two schemas of like declarations, or in neither. -/
theorem Alike.clashes (alike : s.Alike s') (clashes : s.Clashes) : s'.Clashes := by
  obtain ⟨path, other, base, base', called, called', nested, nested', names, differ⟩ := clashes
  obtain ⟨own, called, same⟩ := alike.called called
  obtain ⟨own', called', same'⟩ := alike.called called'
  refine ⟨path, other, own, own', called, called', same.nested nested, same'.nested nested', names, ?_⟩
  exact fun alike => differ (same.trans (alike.trans same'.symm))

end ApiSchema.Schema
