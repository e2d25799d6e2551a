import ApiSchema.Proofs.Analysis.Calling
import ApiSchema.Proofs.Running
import ApiSchema.Proofs.Schema.Shape

/-! No two types share a name, if none is part of two others before they are named; and each of them
bears the name of every path that leads to it. -/

namespace ApiSchema.Naming

open Schema

/-- The name of a path belongs to the base. -/
def Bears (n : Naming) (path : List String) (base : TypeBase) : Prop :=
  base.IsNested → ∃ other, n.holders.get? (nameOfPath path) = some (base, other)

def Complete (n : Naming) (path : List String) (base : TypeBase) : Prop :=
  ∀ label part, n.schema.NestsAs base label part → Bears n (path ++ [label]) part

/-- Each name is that of a path, and belongs to a type that bears it. -/
def Labelled (n : Naming) : Prop :=
  ∀ name h path, n.holders.get? name = some (h, path) →
    h.IsNested ∧ n.schema.baseName h = name ∧ name = nameOfPath path

def Free (n : Naming) (nodes : List Node) : Prop :=
  ∀ name h path x, n.holders.get? name = some (h, path) → h.node? = some x → x ∉ nodes

/-- The nodes are not yet named, and each of them has a record and is met once. -/
structure Fresh (n : Naming) (nodes : List Node) : Prop where
  free : Free n nodes
  once : nodes.Nodup
  recorded : ∀ x ∈ nodes, n.schema.Records x

/-- A later state with other records of no nodes but some, which bears no name without its parts. -/
structure Later (nodes : List Node) (n n' : Naming) : Prop where
  labelled : Labelled n'
  agrees : ∀ x, x ∉ nodes → n.schema.Agrees n'.schema x
  records : ∀ x, n.schema.Records x → n'.schema.Records x
  kept : ∀ name v, n.holders.get? name = some v → n'.holders.get? name = some v
  added : ∀ name h path, n'.holders.get? name = some (h, path) →
    n.holders.get? name = some (h, path) ∨
      ((∀ x, n'.schema.Uses h x → x ∈ nodes) ∧ Complete n' path h)

variable {n n' n'' : Naming} {nodes others : List Node}

theorem Free.of_subset (free : Free n nodes) (fewer : others ⊆ nodes) : Free n others :=
  fun name h path x found own member => free name h path x found own (fewer member)

theorem Fresh.left (fresh : Fresh n (nodes ++ others)) : Fresh n nodes where
  free := fresh.free.of_subset (List.subset_append_left ..)
  once := (List.nodup_append.mp fresh.once).1
  recorded x member := fresh.recorded x (List.mem_append_left _ member)

theorem Fresh.right (fresh : Fresh n (nodes ++ others)) : Fresh n others where
  free := fresh.free.of_subset (List.subset_append_right ..)
  once := (List.nodup_append.mp fresh.once).2.1
  recorded x member := fresh.recorded x (List.mem_append_right _ member)

theorem Fresh.apart (fresh : Fresh n (nodes ++ others)) : ∀ x ∈ nodes, x ∉ others :=
  fun x here there => (List.nodup_append.mp fresh.once).2.2 x here x there rfl

namespace Later

theorem refl (labelled : Labelled n) : Later [] n n where
  labelled := labelled
  agrees x _ := by cases x <;> rfl
  records _ := id
  kept _ _ := id
  added _ _ _ := .inl

theorem bears (later : Later nodes n n') {path : List String} {base : TypeBase}
    (bears : Bears n path base) : Bears n' path base :=
  fun nested => (bears nested).imp fun _ => later.kept _ _

theorem complete (later : Later nodes n n') {path : List String} {base : TypeBase}
    (apart : ∀ x, n.schema.Uses base x → x ∉ nodes) (complete : Complete n path base) :
    Complete n' path base := by
  intro label part nests
  exact later.bears
    (complete label part (Agrees.nests_as (fun x uses => later.agrees x (apart x uses)) nests))

theorem free (later : Later nodes n n') (free : Free n others) (apart : ∀ x ∈ nodes, x ∉ others) :
    Free n' others := by
  intro name h path x found own member
  rcases later.added name h path found with old | ⟨inside, _⟩
  · exact free name h path x old own member
  · exact apart x (inside x (uses_of_node own)) member

theorem fresh (later : Later nodes n n') (fresh : Fresh n (nodes ++ others)) : Fresh n' others where
  free := later.free (fresh.free.of_subset (List.subset_append_right ..)) fresh.apart
  once := (List.nodup_append.mp fresh.once).2.1
  recorded x member := later.records x (fresh.recorded x (List.mem_append_right _ member))

theorem mono (later : Later nodes n n') (more : nodes ⊆ others) : Later others n n' where
  labelled := later.labelled
  agrees x outside := later.agrees x fun member => outside (more member)
  records := later.records
  kept := later.kept
  added name h path found :=
    (later.added name h path found).imp_right fun new => ⟨fun x uses => more (new.1 x uses), new.2⟩

theorem trans (first : Later nodes n n') (second : Later others n' n'')
    (apart : ∀ x ∈ nodes, x ∉ others) : Later (nodes ++ others) n n'' where
  labelled := second.labelled
  agrees x outside := by
    rw [List.mem_append, not_or] at outside
    have one := first.agrees x outside.1
    have two := second.agrees x outside.2
    cases x <;> exact two.trans one
  records x known := second.records x (first.records x known)
  kept name v found := second.kept name v (first.kept name v found)
  added name h path found := by
    rcases second.added name h path found with old | ⟨inside, complete⟩
    · rcases first.added name h path old with older | ⟨inside, complete⟩
      · exact .inl older
      · have apart : ∀ x, n'.schema.Uses h x → x ∉ others := fun x uses => apart x (inside x uses)
        refine .inr ⟨fun x uses => List.mem_append_left _ (inside x ?_), second.complete apart complete⟩
        exact Agrees.uses (fun x own => second.agrees x (apart x (uses_of_node own))) uses
    · exact .inr ⟨fun x uses => List.mem_append_right _ (inside x uses), complete⟩

end Later

/-- The steps of the pass may also fail. -/
abbrev Ends {α : Type} (m : NamingPass α) (n : Naming) (post : α → Naming → Prop) : Prop :=
  Within m n (fun _ => True) post

theorem seq_later {α β : Type} {m : NamingPass α} {k : α → NamingPass β}
    {held : α → Naming → Prop} {post : β → Naming → Prop} (contents : Schema → List Node)
    (congr : ∀ s s', (∀ x ∈ contents s, s.Agrees s' x) → contents s' = contents s)
    (fresh : Fresh n (nodes ++ contents n.schema))
    (first : Ends m n fun a n' => Later nodes n n' ∧ held a n')
    (second : ∀ a n', Labelled n' → Fresh n' (contents n'.schema) →
      (∀ x ∈ nodes, x ∉ contents n'.schema) → held a n' →
        Ends (k a) n' fun b n'' => Later (contents n'.schema) n' n'' ∧ post b n'') :
    Ends (m >>= k) n fun b n'' => Later (nodes ++ contents n.schema) n n'' ∧ post b n'' := by
  apply Within.bind
  apply first.mono
  intro a n' ⟨later, here⟩
  have same : contents n'.schema = contents n.schema :=
    congr _ _ fun x inside => later.agrees x fun there => fresh.apart x there inside
  have fresh' := later.fresh fresh
  have apart := fresh.apart
  rw [← same] at fresh' apart ⊢
  apply (second a n' later.labelled fresh' apart here).mono
  intro b n'' ⟨later', there⟩
  exact ⟨later.trans later' apart, there⟩

section Lists

variable {α β : Type} (contents : Schema → α → List Node)
  (congr : ∀ s s' a, (∀ x ∈ contents s a, s.Agrees s' x) → contents s' a = contents s a)

include congr

theorem contents_later {items : List α} (later : Later nodes n n')
    (apart : ∀ x ∈ nodes, x ∉ items.flatMap (contents n.schema)) :
    items.flatMap (contents n'.schema) = items.flatMap (contents n.schema) := by
  apply List.flatMap_congr
  intro a member
  apply congr
  intro x inside
  exact later.agrees x fun here => apart x here (List.mem_flatMap.mpr ⟨a, member, inside⟩)

theorem for_later {f : α → NamingPass PUnit} (done : Naming → α → Prop)
    (stable : ∀ nodes n n' a, (∀ x, (∀ s, x ∈ contents s a) → x ∉ nodes) → Later nodes n n' →
      done n a → done n' a)
    (step : ∀ a n, Labelled n → Fresh n (contents n.schema a) →
      Ends (f a) n fun _ n' => Later (contents n.schema a) n n' ∧ done n' a) :
    ∀ (items : List α) (n : Naming), Labelled n → Fresh n (items.flatMap (contents n.schema)) →
      Ends (items.forM f) n fun _ n' =>
        Later (items.flatMap (contents n.schema)) n n' ∧ ∀ a ∈ items, done n' a := by
  intro items
  induction items with
  | nil => intro n labelled _; exact ⟨.refl labelled, by simp⟩
  | cons a rest ih =>
    intro n labelled fresh
    rw [List.flatMap_cons] at fresh ⊢
    apply Within.bind
    apply (step a n labelled fresh.left).mono
    intro _ n' ⟨later, here⟩
    have same := contents_later contents congr later fresh.apart
    apply (ih n' later.labelled (same ▸ later.fresh fresh)).mono
    intro _ n'' ⟨later', others⟩
    rw [same] at later'
    refine ⟨later.trans later' fresh.apart, List.forall_mem_cons.mpr ⟨?_, others⟩⟩
    exact stable _ n' n'' a (fun x inside => fresh.apart x (inside n.schema)) later' here

theorem map_later {f : α → NamingPass β} (done : Naming → α → β → Prop)
    (stable : ∀ nodes n n' a b, (∀ x, (∀ s, x ∈ contents s a) → x ∉ nodes) → Later nodes n n' →
      done n a b → done n' a b)
    (step : ∀ a n, Labelled n → Fresh n (contents n.schema a) →
      Ends (f a) n fun b n' => Later (contents n.schema a) n n' ∧ done n' a b) :
    ∀ (items : List α) (n : Naming), Labelled n → Fresh n (items.flatMap (contents n.schema)) →
      Ends (items.mapM f) n fun results n' =>
        Later (items.flatMap (contents n.schema)) n n' ∧ List.Forall₂ (done n') items results := by
  intro items
  induction items with
  | nil => intro n labelled _; exact ⟨.refl labelled, .nil⟩
  | cons a rest ih =>
    intro n labelled fresh
    rw [List.flatMap_cons] at fresh ⊢
    rw [List.mapM_cons]
    apply Within.bind
    apply (step a n labelled fresh.left).mono
    intro b n' ⟨later, here⟩
    have same := contents_later contents congr later fresh.apart
    apply Within.bind
    apply (ih n' later.labelled (same ▸ later.fresh fresh)).mono
    intro results n'' ⟨later', others⟩
    rw [same] at later'
    refine Within.pure ⟨later.trans later' fresh.apart, .cons ?_ others⟩
    exact stable _ n' n'' a b (fun x inside => fresh.apart x (inside n.schema)) later' here

end Lists

theorem give_name_agrees {s : Schema} {base : TypeBase} {name : String} {x : Node}
    (other : base.node? ≠ some x) : s.Agrees (giveName name s base) x := by
  cases base with
  | struct t =>
    cases x with
    | struct u =>
      have different : u ≠ t := fun same => other (same ▸ rfl)
      simp [Agrees, giveName, struct_setStruct, different]
    | _ => rfl
  | enum e =>
    cases x with
    | enum i =>
      have different : i ≠ e := fun same => other (same ▸ rfl)
      simp [Agrees, giveName, enum_setEnum, different]
    | _ => rfl
  | _ => cases x <;> rfl

theorem give_name_records {s : Schema} {base : TypeBase} {name : String} {x : Node}
    (known : s.Records x) : (giveName name s base).Records x := by
  cases base <;> cases x <;> simpa [Records, giveName, setStruct, setEnum] using known

theorem give_name_base_name {s : Schema} {base : TypeBase} {name : String} {x : Node}
    (own : base.node? = some x) (known : s.Records x) :
    (giveName name s base).baseName base = name := by
  cases base with
  | struct t =>
    cases own
    simp only [Records] at known
    simp [giveName, baseName, struct_setStruct, known]
  | enum e =>
    cases own
    simp only [Records] at known
    simp [giveName, baseName, enum_setEnum, known]
  | _ => cases own

/-- Only a struct can stand in the place of a struct. -/
def Fits (base base' : TypeBase) : Prop := ∀ t, base = .struct t → ∃ t', base' = .struct t'

theorem Fits.refl (base : TypeBase) : Fits base base := fun t same => ⟨t, same⟩

theorem fits_of_same_type {s : Schema} {base h : TypeBase}
    (same : s.sameType (.ofBase h) (.ofBase base) = true) : Fits base h := by
  rintro t rfl
  have equal := (same_type_iff.mp same).2
  cases h with
  | struct t' => exact ⟨t', rfl⟩
  | _ => simp [TypeUse.ofBase, nestingBound, shape_struct_succ, shape_enum_succ] at equal

theorem give_name_parts (s : Schema) (base : TypeBase) (name : String) (depth : Nat) :
    (giveName name s base).parts depth = s.parts depth := by
  have fields : ∀ id, (giveName name s base).field id = s.field id := by
    intro id
    cases base <;> rfl
  have structs : ∀ u, ((giveName name s base).struct u).members = (s.struct u).members ∧
      ((giveName name s base).struct u).fields = (s.struct u).fields := by
    intro u
    cases base with
    | struct t =>
      simp only [giveName, struct_setStruct]
      split
      · next same => simp [same.1]
      · exact ⟨rfl, rfl⟩
    | _ => exact ⟨rfl, rfl⟩
  have enums : ∀ i, ((giveName name s base).enum i).values = (s.enum i).values := by
    intro i
    cases base with
    | enum e =>
      simp only [giveName, enum_setEnum]
      split
      · next same => simp [same.1]
      · rfl
    | _ => rfl
  induction depth with
  | zero => rfl
  | succ depth ih =>
    have field : (giveName name s base).fieldParts (s.parts depth) = s.fieldParts (s.parts depth) := by
      funext id
      simp only [fieldParts, fields]
    have member : (giveName name s base).memberParts (s.parts depth)
        = s.memberParts (s.parts depth) := by
      funext m
      cases m with
      | field id => exact congrFun field id
      | spread name nameLocation location => rfl
    funext other
    cases other <;> simp only [parts, heldParts, ih, structs, enums, field, member]

theorem take_name_ends (path : List String) (base : TypeBase) (n : Naming) :
    Ends (takeName path base) n fun taken n' =>
      n'.schema = giveName (nameOfPath path) n.schema base ∧
        ((taken = none ∧ n.holders.get? (nameOfPath path) = none ∧
            n'.holders = n.holders.insert (nameOfPath path) (base, path)) ∨
          ∃ h other, taken = some h ∧ n.holders.get? (nameOfPath path) = some (h, other) ∧
            n'.holders = n.holders ∧ Fits base h) := by
  apply Within.bind
  apply Within.modify
  apply Within.bind
  apply Within.get
  split
  · next free =>
    apply Within.bind
    apply Within.set
    exact Within.pure ⟨rfl, .inl ⟨rfl, free, rfl⟩⟩
  · next h other found =>
    split
    · next same =>
      exact Within.pure ⟨rfl, .inr ⟨h, other, rfl, found, rfl, fits_of_same_type same⟩⟩
    · exact Within.throw trivial

section Taking

variable {path : List String} {base : TypeBase} {x : Node}
  (own : base.node? = some x) (given : n'.schema = giveName (nameOfPath path) n.schema base)

include own given

theorem labelled_of_given (labelled : Labelled n) (fresh : Fresh n (x :: nodes)) (h : TypeBase) (name : String) (other : List String)
    (found : n.holders.get? name = some (h, other)) :
    h.IsNested ∧ n'.schema.baseName h = name ∧ name = nameOfPath other := by
  obtain ⟨nested, named, called⟩ := labelled name h other found
  refine ⟨nested, ?_, called⟩
  rw [given, ← named]
  apply Agrees.base_name
  intro y same
  apply give_name_agrees
  intro mine
  rw [own] at mine
  cases mine
  exact fresh.free name h other x found same (List.mem_cons_self ..)

theorem later_of_held (labelled : Labelled n) (fresh : Fresh n (x :: nodes)) (same : n'.holders = n.holders) : Later (x :: nodes) n n' where
  labelled name h other found :=
    labelled_of_given own given labelled fresh h name other (same ▸ found)
  agrees y outside := by
    rw [given]
    exact give_name_agrees fun mine => outside (by rw [own] at mine; cases mine; simp)
  records y known := by
    rw [given]
    exact give_name_records known
  kept name v found := same ▸ found
  added name h other found := .inl (same ▸ found)

theorem labelled_of_taken (labelled : Labelled n) (fresh : Fresh n (x :: nodes))
    (taken : n'.holders = n.holders.insert (nameOfPath path) (base, path)) : Labelled n' := by
  intro name h other found
  rw [taken, Table.get?_insert] at found
  split at found
  · next here =>
    cases found
    rw [given, here, give_name_base_name own (fresh.recorded x (List.mem_cons_self ..))]
    cases base with
    | struct t => exact ⟨trivial, rfl, rfl⟩
    | enum e => exact ⟨trivial, rfl, rfl⟩
    | _ => cases own
  · exact labelled_of_given own given labelled fresh h name other found

theorem fresh_of_taken (fresh : Fresh n (x :: nodes))
    (taken : n'.holders = n.holders.insert (nameOfPath path) (base, path)) : Fresh n' nodes where
  free name h other y found mine member := by
    rw [taken, Table.get?_insert] at found
    split at found
    · cases found
      rw [own] at mine
      cases mine
      exact (List.nodup_cons.mp fresh.once).1 member
    · exact fresh.free name h other y found mine (List.mem_cons_of_mem _ member)
  once := (List.nodup_cons.mp fresh.once).2
  recorded y member := by
    rw [given]
    exact give_name_records (fresh.recorded y (List.mem_cons_of_mem _ member))

/-- Once its parts are settled, the type that took a name bears it. -/
theorem later_of_taken {n₂ : Naming} (unknown : n.holders.get? (nameOfPath path) = none)
    (taken : n'.holders = n.holders.insert (nameOfPath path) (base, path))
    (later : Later (x :: nodes) n' n₂) (inside : ∀ y, n₂.schema.Uses base y → y ∈ x :: nodes)
    (complete : Complete n₂ path base) : Later (x :: nodes) n n₂ where
  labelled := later.labelled
  agrees y outside := by
    have first : n.schema.Agrees n'.schema y := by
      rw [given]
      exact give_name_agrees fun mine => outside (by rw [own] at mine; cases mine; simp)
    have second := later.agrees y outside
    cases y <;> exact second.trans first
  records y known := by
    apply later.records
    rw [given]
    exact give_name_records known
  kept name v found := by
    apply later.kept
    rw [taken, Table.get?_insert, if_neg]
    · exact found
    · rintro rfl
      rw [unknown] at found
      cases found
  added name h other found := by
    rcases later.added name h other found with old | ⟨uses, complete⟩
    · rw [taken, Table.get?_insert] at old
      split at old
      · cases old
        exact .inr ⟨inside, complete⟩
      · exact .inl old
    · exact .inr ⟨uses, complete⟩

end Taking

def Places (descend : List String → TypeBase → NamingPass TypeBase) (depth : Nat) : Prop :=
  ∀ path base n, Labelled n → Fresh n (n.schema.parts depth base) →
    Ends (descend path base) n fun base' n' =>
      Later (n.schema.parts depth base) n n' ∧ Bears n' path base' ∧ Fits base base'

variable {descend : List String → TypeBase → NamingPass TypeBase} {depth : Nat}

theorem later_of_set_field (labelled : Labelled n) (id : FieldId) (f : Field) :
    Later [.field id] n ⟨n.schema.setField id f, n.holders⟩ where
  labelled := labelled
  agrees x outside := by
    cases x with
    | field other =>
      have different : other ≠ id := fun same => outside (by simp [same])
      simp [Agrees, field_setField, different]
    | _ => rfl
  records x known := by cases x <;> simpa [Records, setField] using known
  kept _ _ found := found
  added _ _ _ := .inl

def FieldBears (n : Naming) (path : List String) (id : FieldId) : Prop :=
  Bears n (path ++ [(n.schema.field id).name]) (n.schema.field id).type.base

theorem name_field_ends (places : Places descend depth) (path : List String) (id : FieldId)
    (labelled : Labelled n)
    (fresh : Fresh n (n.schema.fieldParts (n.schema.parts depth) id)) :
    Ends (nameField descend path id) n fun _ n' =>
      Later (n.schema.fieldParts (n.schema.parts depth) id) n n' ∧ FieldBears n' path id := by
  have fresh' : Fresh n ([.field id] ++ n.schema.parts depth (n.schema.field id).type.base) := fresh
  apply Within.bind
  apply Within.get
  apply Within.bind
  apply (places _ _ n labelled fresh'.right).mono
  intro base n' ⟨later, bears, _⟩
  apply Within.modify
  have changed := later_of_set_field later.labelled id
    { n'.schema.field id with type := { (n'.schema.field id).type with base } }
  have apart : ∀ x ∈ n.schema.parts depth (n.schema.field id).type.base, x ∉ [Node.field id] :=
    fun x inside same => fresh'.apart x same inside
  refine ⟨(later.trans changed apart).mono ?_, ?_⟩
  · exact List.append_subset.mpr ⟨List.subset_cons_self _ _, by simp [fieldParts]⟩
  · have recorded : id < n'.schema.fields.size :=
      later.records _ (fresh'.recorded (.field id) (by simp))
    have same : n'.schema.field id = n.schema.field id :=
      later.agrees (.field id) fun inside => apart _ inside (List.mem_singleton_self _)
    simp only [FieldBears, field_setField, recorded, and_self, if_true]
    rw [← same] at bears
    exact changed.bears bears

theorem name_member_ends (places : Places descend depth) (path : List String) (m : Member)
    (labelled : Labelled n)
    (fresh : Fresh n (n.schema.memberParts (n.schema.parts depth) m)) :
    Ends (nameMember descend path m) n fun _ n' =>
      Later (n.schema.memberParts (n.schema.parts depth) m) n n' ∧
        ∀ id, m = .field id → FieldBears n' path id := by
  cases m with
  | field id =>
    apply (name_field_ends places path id labelled fresh).mono
    rintro _ n' ⟨later, bears⟩
    refine ⟨later, ?_⟩
    rintro _ ⟨⟩
    exact bears
  | spread name nameLocation location =>
    exact Within.pure ⟨.refl labelled, fun id same => by cases same⟩

def ValueBears (n : Naming) (path : List String) (v : EnumValue) : Prop :=
  ∀ t, v.data = some t → Bears n (path ++ [v.text]) (.struct t)

theorem name_value_ends (places : Places descend depth) (path : List String) (v : EnumValue)
    (labelled : Labelled n) (fresh : Fresh n (valueParts (n.schema.parts depth) v)) :
    Ends (nameValue descend path v) n fun v' n' =>
      Later (valueParts (n.schema.parts depth) v) n n' ∧ ValueBears n' path v' := by
  unfold nameValue
  unfold valueParts at *
  cases data : v.data with
  | none => exact Within.pure ⟨.refl labelled, fun t same => by rw [data] at same; cases same⟩
  | some t =>
    rw [data] at fresh
    apply Within.bind
    apply (places _ _ n labelled fresh).mono
    intro base n' ⟨later, bears, fits⟩
    obtain ⟨t', rfl⟩ := fits t rfl
    refine Within.pure ⟨later, ?_⟩
    rintro _ ⟨⟩
    exact bears

theorem FieldBears.later {path : List String} {id : FieldId} (bears : FieldBears n path id)
    (later : Later nodes n n') (outside : .field id ∉ nodes) : FieldBears n' path id := by
  have same : n'.schema.field id = n.schema.field id := later.agrees (.field id) outside
  rw [FieldBears, same]
  exact later.bears bears

theorem name_members_ends (places : Places descend depth) (path : List String)
    (members : List Member) (labelled : Labelled n)
    (fresh : Fresh n (members.flatMap (n.schema.memberParts (n.schema.parts depth)))) :
    Ends (members.forM (nameMember descend path)) n fun _ n' =>
      Later (members.flatMap (n.schema.memberParts (n.schema.parts depth))) n n' ∧
        ∀ m ∈ members, ∀ id, m = .field id → FieldBears n' path id := by
  refine for_later (fun s m => s.memberParts (s.parts depth) m)
    (fun s s' m => member_parts_congr (parts_congr depth))
    (fun n m => ∀ id, m = .field id → FieldBears n path id)
    ?_ (fun m n => name_member_ends places path m) members n labelled fresh
  rintro nodes n n' _ outside later bears id rfl
  exact (bears id rfl).later later (outside _ fun s => by simp [memberParts, fieldParts])

theorem name_fields_ends (places : Places descend depth) (path : List String)
    (ids : List FieldId) (labelled : Labelled n)
    (fresh : Fresh n (ids.flatMap (n.schema.fieldParts (n.schema.parts depth)))) :
    Ends (ids.forM (nameField descend path)) n fun _ n' =>
      Later (ids.flatMap (n.schema.fieldParts (n.schema.parts depth))) n n' ∧
        ∀ id ∈ ids, FieldBears n' path id := by
  refine for_later (fun s id => s.fieldParts (s.parts depth) id)
    (fun s s' id => field_parts_congr (parts_congr depth))
    (fun n id => FieldBears n path id)
    ?_ (fun id n => name_field_ends places path id) ids n labelled fresh
  intro nodes n n' id outside later bears
  exact bears.later later (outside _ fun s => by simp [fieldParts])

theorem name_held_ends (places : Places descend depth) (path : List String)
    (members : List Member) (ids : List FieldId) (labelled : Labelled n)
    (fresh : Fresh n (n.schema.heldParts (n.schema.parts depth) members ids)) :
    Ends (members.forM (nameMember descend path) >>= fun _ => ids.forM (nameField descend path)) n
      fun _ n' => Later (n.schema.heldParts (n.schema.parts depth) members ids) n n' ∧
        ∀ id, .field id ∈ members ∨ id ∈ ids → FieldBears n' path id := by
  refine seq_later (fun s => ids.flatMap (s.fieldParts (s.parts depth))) ?_ fresh
    (name_members_ends places path members labelled fresh.left) ?_
  · intro s s' agrees
    have same : s'.heldParts (s'.parts depth) [] ids = s.heldParts (s.parts depth) [] ids :=
      held_parts_congr (parts_congr depth) agrees
    exact same
  intro _ n' labelled' fresh' apart bears
  apply (name_fields_ends places path ids labelled' fresh').mono
  intro _ n'' ⟨later, bears'⟩
  refine ⟨later, ?_⟩
  rintro id (member | member)
  · apply (bears _ member id rfl).later later (apart _ _)
    exact List.mem_flatMap.mpr ⟨_, member, by simp [memberParts, fieldParts]⟩
  · exact bears' id member

theorem name_values_ends (places : Places descend depth) (path : List String)
    (values : List EnumValue) (labelled : Labelled n)
    (fresh : Fresh n (values.flatMap (valueParts (n.schema.parts depth)))) :
    Ends (values.mapM (nameValue descend path)) n fun values' n' =>
      Later (values.flatMap (valueParts (n.schema.parts depth))) n n' ∧
        List.Forall₂ (fun _ v' => ValueBears n' path v') values values' :=
  map_later (fun s v => valueParts (s.parts depth) v)
    (fun _ _ _ => value_parts_congr (parts_congr depth))
    (fun n _ (v' : EnumValue) => ValueBears n path v')
    (fun _ _ _ _ _ _ later bears t data => later.bears (bears t data))
    (fun v _ => name_value_ends places path v) values n labelled fresh

theorem complete_of_held {path : List String} {t : StructId}
    (bears : ∀ id, n.schema.Holds t id → FieldBears n path id) : Complete n path (.struct t) := by
  intro label part nests
  cases nests with
  | field held => exact bears _ held

theorem complete_of_values {path : List String} {e : EnumId}
    (bears : ∀ v ∈ (n.schema.enum e).values, ValueBears n path v) : Complete n path (.enum e) := by
  intro label part nests
  cases nests with
  | value member data => exact bears _ member _ data

theorem later_of_set_values (labelled : Labelled n) (e : EnumId) (values : List EnumValue) :
    Later [.enum e] n ⟨n.schema.setEnum e { n.schema.enum e with values }, n.holders⟩ where
  labelled name h path found := by
    obtain ⟨nested, named, called⟩ := labelled name h path found
    refine ⟨nested, ?_, called⟩
    rw [← named]
    cases h with
    | enum i =>
      simp only [baseName, enum_setEnum]
      split
      · next same => rw [same.1]
      · rfl
    | _ => rfl
  agrees x outside := by
    cases x with
    | enum other =>
      have different : other ≠ e := fun same => outside (by simp [same])
      simp [Agrees, enum_setEnum, different]
    | _ => rfl
  records x known := by cases x <;> simpa [Records, setEnum] using known
  kept _ _ found := found
  added _ _ _ := .inl

theorem name_struct_ends (places : Places (nameBase depth) depth) (path : List String)
    (t : StructId) (labelled : Labelled n) (fresh : Fresh n (n.schema.parts (depth + 1) (.struct t))) :
    Ends (nameBase (depth + 1) path (.struct t)) n fun base' n' =>
      Later (n.schema.parts (depth + 1) (.struct t)) n n' ∧ Bears n' path base' ∧
        Fits (.struct t) base' := by
  apply Within.bind
  apply (take_name_ends path (.struct t) n).mono
  rintro _ n' ⟨given, ⟨rfl, unknown, taken⟩ | ⟨h, other, rfl, found, same, fits⟩⟩
  · have same : n'.schema.parts (depth + 1) (.struct t) = n.schema.parts (depth + 1) (.struct t) := by
      rw [given, give_name_parts]
    rw [← same] at fresh ⊢
    have labelled' := labelled_of_taken rfl given labelled fresh taken
    have fresh' := fresh_of_taken rfl given fresh taken
    apply Within.bind
    apply Within.get
    rw [← bind_assoc]
    apply Within.bind
    apply (name_held_ends places path _ _ labelled' fresh').mono
    intro _ n₂ ⟨later, bears⟩
    have unchanged : n₂.schema.struct t = n'.schema.struct t :=
      later.agrees (.struct t) (List.nodup_cons.mp fresh.once).1
    have complete : Complete n₂ path (.struct t) := by
      apply complete_of_held
      intro id held
      exact bears id (by rwa [Holds, unchanged] at held)
    have inside : ∀ y, n₂.schema.Uses (.struct t) y → y ∈ n'.schema.parts (depth + 1) (.struct t) :=
      fun y uses => mem_parts_of_uses (Agrees.uses (by rintro _ ⟨⟩; exact unchanged) uses)
    have found : n'.holders.get? (nameOfPath path) = some (.struct t, path) := by
      rw [taken, Table.get?_insert, if_pos rfl]
    refine Within.pure ⟨?_, fun _ => ⟨path, later.kept _ _ found⟩, .refl _⟩
    exact later_of_taken rfl given unknown taken (later.mono (List.subset_cons_self ..)) inside complete
  · have later := later_of_held rfl given labelled fresh same
    exact Within.pure ⟨later, fun _ => ⟨other, later.kept _ _ found⟩, fits⟩

theorem name_enum_ends (places : Places (nameBase depth) depth) (path : List String)
    (e : EnumId) (labelled : Labelled n) (fresh : Fresh n (n.schema.parts (depth + 1) (.enum e))) :
    Ends (nameBase (depth + 1) path (.enum e)) n fun base' n' =>
      Later (n.schema.parts (depth + 1) (.enum e)) n n' ∧ Bears n' path base' ∧
        Fits (.enum e) base' := by
  apply Within.bind
  apply (take_name_ends path (.enum e) n).mono
  rintro _ n' ⟨given, ⟨rfl, unknown, taken⟩ | ⟨h, other, rfl, found, same, fits⟩⟩
  · have same : n'.schema.parts (depth + 1) (.enum e) = n.schema.parts (depth + 1) (.enum e) := by
      rw [given, give_name_parts]
    rw [← same] at fresh ⊢
    have labelled' := labelled_of_taken rfl given labelled fresh taken
    have fresh' := fresh_of_taken rfl given fresh taken
    have recorded : n'.schema.Records (.enum e) := by
      rw [given]
      exact give_name_records (fresh.recorded _ (List.mem_cons_self ..))
    apply Within.bind
    apply Within.get
    apply Within.bind
    apply (name_values_ends places path _ labelled' fresh').mono
    intro values n₁ ⟨later₁, bears⟩
    apply Within.bind
    apply Within.modify
    have later₂ := later_of_set_values later₁.labelled e values
    have apart : ∀ x ∈ (n'.schema.enum e).values.flatMap (valueParts (n'.schema.parts depth)),
        x ∉ [Node.enum e] := by
      intro x inside here
      rw [List.mem_singleton] at here
      exact (List.nodup_cons.mp fresh.once).1 (here ▸ inside)
    have later : Later (n'.schema.parts (depth + 1) (.enum e)) n' _ :=
      (later₁.trans later₂ apart).mono
        (List.append_subset.mpr ⟨List.subset_cons_self _ _, by simp [parts]⟩)
    have inRange : e < n₁.schema.enums.size := later₁.records _ recorded
    have complete : Complete ⟨n₁.schema.setEnum e { n₁.schema.enum e with values }, n₁.holders⟩
        path (.enum e) := by
      apply complete_of_values
      intro v member t data
      simp only [enum_setEnum, inRange, and_self, if_true] at member
      obtain ⟨_, _, bears⟩ := exists_left bears member
      exact later₂.bears (bears t data)
    have found : n'.holders.get? (nameOfPath path) = some (.enum e, path) := by
      rw [taken, Table.get?_insert, if_pos rfl]
    refine Within.pure ⟨?_, fun _ => ⟨path, later.kept _ _ found⟩, .refl _⟩
    apply later_of_taken rfl given unknown taken later _ complete
    rintro _ (_ | _)
    exact List.mem_cons_self ..
  · have later := later_of_held rfl given labelled fresh same
    exact Within.pure ⟨later, fun _ => ⟨other, later.kept _ _ found⟩, fits⟩

theorem name_base_ends (fuel : Nat) : Places (nameBase fuel) fuel := by
  induction fuel with
  | zero => exact fun path base n _ _ => Within.throw trivial
  | succ fuel places =>
    intro path base n labelled fresh
    cases base with
    | primitive kind => exact Within.pure ⟨.refl labelled, nofun, .refl _⟩
    | reference name location => exact Within.pure ⟨.refl labelled, nofun, .refl _⟩
    | struct t => exact name_struct_ends places path t labelled fresh
    | enum e => exact name_enum_ends places path e labelled fresh

theorem name_type_ends (path : List String) (t : TypeUse) (labelled : Labelled n)
    (fresh : Fresh n (n.schema.parts depth t.base)) :
    Ends (nameType depth path t) n fun t' n' =>
      Later (n.schema.parts depth t.base) n n' ∧ Bears n' path t'.base := by
  apply Within.bind
  apply (name_base_ends depth path t.base n labelled fresh).mono
  intro base n' ⟨later, bears, _⟩
  exact Within.pure ⟨later, bears⟩

theorem name_error_ends (e : ErrorKind) (labelled : Labelled n)
    (fresh : Fresh n (n.schema.parts depth e.data.base)) :
    Ends (nameError depth e) n fun e' n' =>
      Later (n.schema.parts depth e.data.base) n n' ∧
        Bears n' [e'.name ++ "Data"] e'.data.base := by
  apply Within.bind
  apply (name_type_ends _ _ labelled fresh).mono
  intro data n' ⟨later, bears⟩
  exact Within.pure ⟨later, bears⟩

theorem name_definition_ends (d : Definition) (labelled : Labelled n)
    (fresh : Fresh n (n.schema.parts depth d.type.base)) :
    Ends (nameDefinition depth d) n fun d' n' =>
      Later (n.schema.parts depth d.type.base) n n' ∧ Bears n' [d'.name] d'.type.base := by
  apply Within.bind
  apply (name_type_ends _ _ labelled fresh).mono
  intro type n' ⟨later, bears⟩
  exact Within.pure ⟨later, bears⟩

structure OperationBears (n : Naming) (o o' : Operation) : Prop where
  name : o'.name = o.name
  members : o'.members = o.members
  args : o'.args = o.args
  held : ∀ id, .field id ∈ o.members ∨ id ∈ o.args → FieldBears n [o.name] id
  returns : Bears n [o.name] o'.returns.base

theorem name_operation_ends (o : Operation) (labelled : Labelled n)
    (fresh : Fresh n (n.schema.operationParts (n.schema.parts depth) o)) :
    Ends (nameOperation depth o) n fun o' n' =>
      Later (n.schema.operationParts (n.schema.parts depth) o) n n' ∧ OperationBears n' o o' := by
  simp only [nameOperation, ← bind_assoc]
  rw [bind_assoc]
  refine seq_later (fun s => s.parts depth o.returns.base) (fun s s' => parts_congr depth _)
    fresh (name_held_ends (name_base_ends depth) _ _ _ labelled fresh.left) ?_
  intro _ n' labelled' fresh' apart bears
  apply Within.bind
  apply (name_type_ends _ _ labelled' fresh').mono
  intro returns n'' ⟨later, bears'⟩
  refine Within.pure ⟨later, rfl, rfl, rfl, fun id held => ?_, bears'⟩
  exact (bears id held).later later (apart _ (mem_held_parts held))

theorem OperationBears.later {o o' : Operation} (bears : OperationBears n o o')
    (later : Later nodes n n')
    (outside : ∀ x, (∀ s : Schema, x ∈ s.operationParts (s.parts depth) o) → x ∉ nodes) :
    OperationBears n' o o' where
  name := bears.name
  members := bears.members
  args := bears.args
  held id held := by
    apply (bears.held id held).later later
    exact outside _ fun s => List.mem_append_left _ (mem_held_parts held)
  returns := later.bears bears.returns

/-- The pass is through: each name belongs to one type, and each declared type bears that of its
declaration. -/
structure Finished (n : Naming) : Prop where
  labelled : Labelled n
  complete : ∀ name h path, n.holders.get? name = some (h, path) → Complete n path h
  errors : ∀ e ∈ n.schema.errors, Bears n [e.name ++ "Data"] e.data.base
  definitions : ∀ d ∈ n.schema.definitions, Bears n [d.name] d.type.base
  args : ∀ o ∈ n.schema.operations, ∀ id, .field id ∈ o.members ∨ id ∈ o.args →
    FieldBears n [o.name] id
  returns : ∀ o ∈ n.schema.operations, Bears n [o.name] o.returns.base

theorem finished_of_later {s : Schema} (later : Later nodes ⟨s, []⟩ n) {errors : List ErrorKind}
    {definitions : List Definition} {operations operations' : List Operation}
    (errorsBear : ∀ e ∈ errors, Bears n [e.name ++ "Data"] e.data.base)
    (definitionsBear : ∀ d ∈ definitions, Bears n [d.name] d.type.base)
    (operationsBear : List.Forall₂ (OperationBears n) operations operations') :
    Finished ⟨{ n.schema with errors, definitions, operations := operations' }, n.holders⟩ where
  labelled := later.labelled
  complete name h path found := by
    rcases later.added name h path found with old | ⟨_, complete⟩
    · cases old
    · intro label part nests
      refine complete label part ?_
      cases nests with
      | field held => exact .field held
      | value member data => exact .value member data
  errors := errorsBear
  definitions := definitionsBear
  args o member id held := by
    obtain ⟨_, _, bears⟩ := exists_left operationsBear member
    rw [bears.members, bears.args] at held
    rw [bears.name]
    exact bears.held id held
  returns o member := by
    obtain ⟨_, _, bears⟩ := exists_left operationsBear member
    rw [bears.name]
    exact bears.returns

theorem name_all_ends {s : Schema} (treelike : s.Treelike) :
    Ends nameAll ⟨s, []⟩ fun _ n => Finished n := by
  have labelled : Labelled ⟨s, []⟩ := fun name h path found => by cases found
  have fresh : Fresh ⟨s, []⟩ (s.declaredParts (s.nestingBound + 1)) :=
    ⟨nofun, treelike.once _, treelike.recorded _⟩
  apply Within.bind
  apply Within.get
  dsimp only
  generalize s.nestingBound + 1 = depth at fresh ⊢
  have congrTypes : ∀ (s s' : Schema) (d : Definition),
      (∀ x ∈ s.parts depth d.type.base, s.Agrees s' x) →
        s'.parts depth d.type.base = s.parts depth d.type.base :=
    fun s s' d => parts_congr depth d.type.base
  have congrOperations : ∀ (s s' : Schema) (o : Operation),
      (∀ x ∈ s.operationParts (s.parts depth) o, s.Agrees s' x) →
        s'.operationParts (s'.parts depth) o = s.operationParts (s.parts depth) o :=
    fun s s' o => operation_parts_congr
  apply Within.bind
  apply (map_later (fun s (e : ErrorKind) => s.parts depth e.data.base)
    (fun s s' e => parts_congr depth _)
    (fun n _ (e' : ErrorKind) => Bears n [e'.name ++ "Data"] e'.data.base)
    (fun _ _ _ _ _ _ later bears => later.bears bears)
    (fun e n => name_error_ends e) s.errors _ labelled fresh.left).mono
  intro errors n₁ ⟨later₁, errorsBear⟩
  have fresh₁ := later₁.fresh fresh
  have types₁ := contents_later _ congrTypes later₁
    fun x here there => fresh.apart x here (List.mem_append_left _ there)
  have operations₁ := contents_later _ congrOperations later₁
    fun x here there => fresh.apart x here (List.mem_append_right _ there)
  rw [← types₁, ← operations₁] at fresh₁
  apply Within.bind
  apply (map_later _ congrTypes (fun n _ (d' : Definition) => Bears n [d'.name] d'.type.base)
    (fun _ _ _ _ _ _ later bears => later.bears bears)
    (fun d n => name_definition_ends d) s.definitions _ later₁.labelled fresh₁.left).mono
  intro definitions n₂ ⟨later₂, definitionsBear⟩
  have fresh₂ := later₂.fresh fresh₁
  have operations₂ := contents_later _ congrOperations later₂ fresh₁.apart
  rw [← operations₂] at fresh₂
  apply Within.bind
  apply (map_later _ congrOperations OperationBears
    (fun _ _ _ _ _ outside later bears => bears.later later outside)
    (fun o n => name_operation_ends o) s.operations _ later₂.labelled fresh₂).mono
  intro operations n₃ ⟨later₃, operationsBear⟩
  apply Within.modify
  rw [operations₂] at later₃
  have later := later₂.trans later₃ fresh₁.apart
  rw [types₁, operations₁] at later
  refine finished_of_later (later₁.trans later fresh.apart) ?_ ?_ operationsBear
  · intro e member
    obtain ⟨_, _, bears⟩ := exists_left errorsBear member
    exact later.bears bears
  · intro d member
    obtain ⟨_, _, bears⟩ := exists_left definitionsBear member
    exact later₃.bears bears

theorem Finished.bears (finished : Finished n) {path : List String} {base : TypeBase}
    (called : n.schema.Called path base) : Bears n path base := by
  induction called with
  | error member => exact finished.errors _ member
  | definition member => exact finished.definitions _ member
  | argument member held => exact finished.args _ member _ held
  | returns member => exact finished.returns _ member
  | @inside path base label part _ nests ih =>
    intro nested
    obtain ⟨other, found⟩ := ih nests.nests.nested
    have same := (finished.labelled _ _ _ found).2.2
    rw [name_of_path_congr same label]
    exact finished.complete _ _ _ found label part nests nested

end ApiSchema.Naming

namespace ApiSchema.Schema

/-- Each struct and enum is named after every path that leads to it. -/
def NamedByPaths (s : Schema) : Prop :=
  ∀ path base, s.Called path base → base.IsNested → s.baseName base = Naming.nameOfPath path

/-- No two types behind the declarations share a name, and all are named after their paths. -/
structure WellNamed (s : Schema) : Prop where
  apart : ∀ base other, s.Known base → s.Known other → base.IsNested → other.IsNested →
    s.baseName base = s.baseName other → base = other
  called : s.NamedByPaths

theorem WellNamed.own {s : Schema} (names : s.WellNamed) {d : Definition} (member : d ∈ s.definitions)
    (nested : d.type.base.IsNested) : s.baseName d.type.base = Naming.nameOfPath [d.name] :=
  names.called _ _ (.definition member) nested

theorem well_named_of_name_types {s g : Schema} (treelike : s.Treelike)
    (named : s.nameTypes = .ok g) : g.WellNamed := by
  have run := Naming.name_all_ends treelike
  cases ran : Naming.nameAll.run ⟨s, []⟩ with
  | error e => simp only [nameTypes, ran] at named; cases named
  | ok r =>
    simp only [nameTypes, ran] at named
    cases named
    have finished := run.of_ok ran
    constructor
    · intro base other known known' nested nested' same
      obtain ⟨path, called⟩ := known.called nested
      obtain ⟨path', called'⟩ := known'.called nested'
      obtain ⟨_, found⟩ := finished.bears called nested
      obtain ⟨_, found'⟩ := finished.bears called' nested'
      have bears := (finished.labelled _ base _ found).2.1
      have bears' := (finished.labelled _ other _ found').2.1
      rw [← bears, same, bears', found'] at found
      cases found
      rfl
    · intro path base called nested
      obtain ⟨_, found⟩ := finished.bears called nested
      exact (finished.labelled _ _ _ found).2.1

end ApiSchema.Schema
