import ApiSchema.Proofs.Document.Recalling
import Mathlib.Data.String.Basic

/-! What a document is loaded as is written as that document: its structs and enums are met in the
order of their definitions, and each gets its entry again. -/

namespace ApiSchema

namespace Walk

structure Collects (w : Walk) (structs : List StructId) (enums : List EnumId) : Prop where
  structs : Schema.structsMet w.visits = structs
  enums : Schema.enumsMet w.visits = enums
  ends : w.ends = true

variable {w : Walk} {ts ts' : List StructId} {es es' : List EnumId}

theorem Collects.structs_then (collects : Collects w ts es) (next : Unit → Walk) :
    Schema.structsMet (w.andThen next).visits = ts ++ Schema.structsMet (next ()).visits := by
  rw [andThen, if_pos collects.ends]
  dsimp only
  rw [Schema.structs_met_append, collects.structs]

theorem Collects.enums_then (collects : Collects w ts es) (next : Unit → Walk) :
    Schema.enumsMet (w.andThen next).visits = es ++ Schema.enumsMet (next ()).visits := by
  rw [andThen, if_pos collects.ends]
  dsimp only
  rw [Schema.enumsMet, List.filterMap_append]
  exact congrArg (· ++ _) collects.enums

theorem Collects.andThen {n : Unit → Walk} (first : Collects w ts es)
    (second : Collects (n ()) ts' es') : Collects (w.andThen n) (ts ++ ts') (es ++ es') where
  structs := by rw [first.structs_then, second.structs]
  enums := by rw [first.enums_then, second.enums]
  ends := by rw [andThen_ends, first.ends, second.ends]; rfl

theorem Collects.each {α : Type} {walk : α → Walk} {items : List α} (structs : α → List StructId)
    (enums : α → List EnumId) (each : ∀ a ∈ items, Collects (walk a) (structs a) (enums a)) :
    Collects (Walk.each walk items) (items.flatMap structs) (items.flatMap enums) := by
  induction items with
  | nil => exact ⟨rfl, rfl, rfl⟩
  | cons a rest ih =>
    exact (each a (List.mem_cons_self ..)).andThen (ih fun b member => each b (List.mem_cons_of_mem _ member))

theorem flatMap_nothing {α β : Type} (items : List α) : items.flatMap (fun _ => ([] : List β)) = [] :=
  List.flatMap_eq_nil_iff.mpr fun _ _ => rfl

theorem Collects.each_silent {α : Type} {walk : α → Walk} {items : List α}
    (each : ∀ a ∈ items, Collects (walk a) [] []) : Collects (Walk.each walk items) [] [] := by
  have all := Collects.each (fun _ => []) (fun _ => []) each
  rwa [flatMap_nothing] at all

theorem each_map {α β : Type} (walk : β → Walk) (f : α → β) (items : List α) :
    each walk (items.map f) = each (fun a => walk (f a)) items := by
  induction items with
  | nil => rfl
  | cons a rest ih => rw [List.map_cons, each, each, ih]

theorem each_append {α : Type} (walk : α → Walk) (items others : List α) :
    each walk (items ++ others) = (each walk items).andThen fun _ => each walk others := by
  induction items with
  | nil => rfl
  | cons a rest ih => rw [List.cons_append, each, each, ih, andThen_assoc]

end Walk

namespace Schema

variable {s g final : Schema} {d : Document}

open Walk (Collects)

section Walks

theorem plain_met {base : TypeBase} (plain : ¬ base.IsNested) (fuel : Nat) :
    Collects (s.walkBase fuel base) [] [] := by
  cases base with
  | primitive kind => cases fuel <;> exact ⟨rfl, rfl, rfl⟩
  | reference name location => cases fuel <;> exact ⟨rfl, rfl, rfl⟩
  | struct | enum => exact absurd trivial plain

theorem struct_met {t : StructId} (members : (s.struct t).members = [])
    (plain : ∀ id ∈ (s.struct t).fields, ¬ (s.field id).type.base.IsNested) (fuel : Nat) :
    Collects (s.walkBase (fuel + 1) (.struct t)) [t] [] := by
  have fields : Collects (Walk.each (s.walkField (s.walkBase fuel)) (s.struct t).fields) [] [] :=
    .each_silent fun id held => Collects.andThen (w := .meet (.field id)) ⟨rfl, rfl, rfl⟩
      (plain_met (plain id held) fuel)
  have own : Collects (.meet (.struct t)) [t] [] := ⟨rfl, rfl, rfl⟩
  rw [walkBase, members]
  exact Collects.andThen (w := Walk.each _ []) ⟨rfl, rfl, rfl⟩ (fields.andThen own)

theorem enum_met {e : EnumId} {fuel : Nat}
    (data : ∀ v ∈ (s.enum e).values, ∀ t, v.data = some t → Collects (s.walkBase fuel (.struct t)) [t] []) :
    Collects (s.walkBase (fuel + 1) (.enum e)) ((s.enum e).values.flatMap (·.data.toList)) [e] := by
  have values : Collects (Walk.each (walkValue (s.walkBase fuel)) (s.enum e).values)
      ((s.enum e).values.flatMap (·.data.toList)) ((s.enum e).values.flatMap fun _ => []) := by
    refine .each _ _ fun v held => Collects.andThen (w := .meet (.value v)) ⟨rfl, rfl, rfl⟩ ?_
    cases carried : v.data with
    | none => exact ⟨rfl, rfl, rfl⟩
    | some t => exact data v held t carried
  have own : Collects (.meet (.enum e)) [] [e] := ⟨rfl, rfl, rfl⟩
  have all : Collects (s.walkBase (fuel + 1) (.enum e)) _ _ := values.andThen own
  rwa [Walk.flatMap_nothing, List.append_nil, List.nil_append] at all

end Walks

section Firsts

theorem firsts_known {ids kept : List Nat} (inside : ∀ id ∈ ids, id ∈ kept) :
    ids.foldl (fun kept id => if kept.contains id then kept else kept ++ [id]) kept = kept := by
  induction ids with
  | nil => rfl
  | cons id rest ih =>
    rw [List.foldl_cons, if_pos (by simpa using inside id (List.mem_cons_self ..))]
    exact ih fun other member => inside other (List.mem_cons_of_mem _ member)

theorem firsts_new {ids : List Nat} : ∀ {kept : List Nat}, (kept ++ ids).Nodup →
    ids.foldl (fun kept id => if kept.contains id then kept else kept ++ [id]) kept = kept ++ ids := by
  induction ids with
  | nil => intro kept _; rw [List.foldl_nil, List.append_nil]
  | cons id rest ih =>
    intro kept distinct
    have fresh : id ∉ kept := fun member =>
      (List.nodup_append.mp distinct).2.2 id member id (List.mem_cons_self ..) rfl
    rw [List.foldl_cons, if_neg (by simpa using fresh), ih (by simpa using distinct)]
    simp

theorem firsts_eq {ids rest : List Nat} (distinct : ids.Nodup) (inside : ∀ id ∈ rest, id ∈ ids) :
    firsts (ids ++ rest) = ids := by
  rw [firsts, List.foldl_append, @firsts_new ids [] (by simpa using distinct), List.nil_append,
    firsts_known inside]

theorem map_idx_of {items : List Nat} (distinct : items.Nodup) :
    items.map (items.idxOf ·) = List.range items.length := by
  apply List.ext_getElem
  · simp
  · intro n inside _
    rw [List.length_map] at inside
    simp [distinct.idxOf_getElem n inside]

end Firsts

namespace Projects

theorem definitions_walk (retells : final.Retells g) :
    Walk.each (fun a => (Walk.meet (.definition a)).andThen fun _ => g.walkFrom a.type.base) g.definitions =
      (Walk.each (fun t => (Walk.meet (.definition (final.seatDefinition (.struct t)))).andThen fun _ =>
        g.walkFrom (.struct (final.structOrder.idxOf t))) final.structOrder).andThen fun _ =>
      (Walk.each (fun e => (Walk.meet (.definition (final.seatDefinition (.enum e)))).andThen fun _ =>
        g.walkFrom (.enum (final.enumOrder.idxOf e))) final.enumOrder).andThen fun _ =>
      Walk.each (fun a => (Walk.meet (.definition a)).andThen fun _ => g.walkFrom a.type.base)
        (final.aliasTexts.map textDefinition) := by
  rw [retells.definitions, collected, List.map_append, List.map_map, List.map_map, List.append_assoc,
    Walk.each_append, Walk.each_append, Walk.each_map, Walk.each_map]
  rfl

variable (projects : final.Projects d) (retells : final.Retells g)

include retells

theorem seat_struct_met {t : StructId} (member : t ∈ final.structOrder) (fuel : Nat) :
    Collects (g.walkBase (fuel + 1) (.struct (final.structOrder.idxOf t))) [final.structOrder.idxOf t] [] := by
  refine struct_met (retells.members t member) (fun id held => ?_) fuel
  obtain ⟨first, _, same⟩ := retells.exists_field member held
  rw [same]
  exact not_nested_told _

include projects

theorem seat_enum_met {e : EnumId} (member : e ∈ final.enumOrder) :
    ∃ ts, Collects (g.walkFrom (.enum (final.enumOrder.idxOf e))) ts [final.enumOrder.idxOf e] := by
  refine ⟨_, enum_met fun v held t data => ?_⟩
  obtain ⟨first, written, rfl⟩ := retells.exists_value member held
  obtain ⟨t, own, rfl⟩ := Option.map_eq_some_iff.mp data
  have listed := projects.data_listed member written own
  have room : 0 < g.structs.size :=
    retells.structCount ▸ Nat.zero_lt_of_lt (List.idxOf_lt_length_of_mem listed)
  obtain ⟨fuel, enough⟩ := Nat.exists_eq_succ_of_ne_zero (Nat.ne_of_gt (Nat.add_pos_left room g.enums.size))
  rw [enough]
  exact seat_struct_met retells listed fuel

theorem met_first : (∃ rest, structsMet g.walk.visits = List.range final.structOrder.length ++ rest) ∧
    ∃ rest, enumsMet g.walk.visits = List.range final.enumOrder.length ++ rest := by
  have errors : Collects (Walk.each (fun e => (Walk.meet (.error e)).andThen fun _ =>
      g.walkFrom e.data.base) g.errors) [] [] := by
    refine .each_silent fun e member => Collects.andThen (w := .meet (.error e)) ⟨rfl, rfl, rfl⟩ ?_
    rw [retells.errors] at member
    obtain ⟨first, _, rfl⟩ := List.mem_map.mp member
    exact plain_met (not_nested_told _) _
  have structs : Collects (Walk.each (fun t =>
      (Walk.meet (.definition (final.seatDefinition (.struct t)))).andThen fun _ =>
        g.walkFrom (.struct (final.structOrder.idxOf t))) final.structOrder)
      (List.range final.structOrder.length) [] := by
    have each : ∀ t ∈ final.structOrder, Collects
        ((Walk.meet (.definition (final.seatDefinition (.struct t)))).andThen fun _ =>
          g.walkFrom (.struct (final.structOrder.idxOf t))) [final.structOrder.idxOf t] [] :=
      fun t member => Collects.andThen ⟨rfl, rfl, rfl⟩
        (seat_struct_met retells member (g.structs.size + g.enums.size))
    have all := Collects.each _ _ each
    rwa [Walk.flatMap_nothing, ← List.map_eq_flatMap, map_idx_of projects.struct_order_nodup] at all
  have enums : ∃ ts, Collects (Walk.each (fun e =>
      (Walk.meet (.definition (final.seatDefinition (.enum e)))).andThen fun _ =>
        g.walkFrom (.enum (final.enumOrder.idxOf e))) final.enumOrder) ts
      (List.range final.enumOrder.length) := by
    choose! ts met using fun e (member : e ∈ final.enumOrder) => projects.seat_enum_met retells member
    have each : ∀ e ∈ final.enumOrder, Collects
        ((Walk.meet (.definition (final.seatDefinition (.enum e)))).andThen fun _ =>
          g.walkFrom (.enum (final.enumOrder.idxOf e))) ([] ++ ts e) ([] ++ [final.enumOrder.idxOf e]) :=
      fun e member => Collects.andThen ⟨rfl, rfl, rfl⟩ (met e member)
    have all := Collects.each _ _ each
    simp only [List.nil_append] at all
    rw [← List.map_eq_flatMap, map_idx_of projects.enum_order_nodup] at all
    exact ⟨_, all⟩
  obtain ⟨ts, enums⟩ := enums
  rw [walk]
  constructor
  · rw [errors.structs_then]
    simp only [definitions_walk retells, Walk.andThen_assoc]
    rw [structs.structs_then]
    exact ⟨_, rfl⟩
  · rw [errors.enums_then]
    simp only [definitions_walk retells, Walk.andThen_assoc]
    rw [structs.enums_then, enums.enums_then]
    exact ⟨_, rfl⟩

theorem orders (grounded : g.Grounded) :
    g.collectTypes.structOrder = List.range final.structOrder.length ∧
      g.collectTypes.enumOrder = List.range final.enumOrder.length := by
  obtain ⟨⟨rest, structs⟩, rest', enums⟩ := projects.met_first retells
  constructor
  · refine (congrArg firsts structs).trans (firsts_eq List.nodup_range fun t listed => ?_)
    have met : t ∈ structsMet g.walk.visits := structs ▸ List.mem_append_right _ listed
    obtain ⟨first, member, rfl⟩ := projects.seated_struct retells
      (known_of_visits_struct ((mem_walk grounded).mp (mem_structs_met.mp met)))
    exact List.mem_range.mpr (List.idxOf_lt_length_of_mem member)
  · refine (congrArg firsts enums).trans (firsts_eq List.nodup_range fun e listed => ?_)
    have met : e ∈ enumsMet g.walk.visits := enums ▸ List.mem_append_right _ listed
    have visited : .enum e ∈ g.walk.visits := by
      obtain ⟨v, visited, same⟩ := List.mem_filterMap.mp met
      cases v <;> cases same
      exact visited
    obtain ⟨first, member, rfl⟩ := projects.seated_enum retells
      (known_of_visits_enum ((mem_walk grounded).mp visited))
    exact List.mem_range.mpr (List.idxOf_lt_length_of_mem member)

end Projects

section Rewriting

theorem type_name_retold (t : TypeUse) : g.typeName (s.retold t) = s.typeName t := by
  rw [typeName, retold, told, base_name_base_of]
  rfl

theorem descriptions_described (texts : List String) :
    Note.descriptions (texts.map fun text => ⟨.description text, {}⟩) = texts := by
  simp [Note.descriptions, List.filterMap_map]

section Fields

variable {ids ids' : List FieldId} (same : ids'.map g.field = ids.map s.retoldField)

include same

theorem field_texts_retold : g.fieldTexts ids' = s.fieldTexts ids := by
  have texts : ids'.map g.fieldText = ids.map s.fieldText :=
    calc ids'.map g.fieldText
      _ = (ids'.map g.field).map fun f => (f.name, g.typeName f.type) := by
        rw [List.map_map]
        rfl
      _ = (ids.map s.retoldField).map fun f => (f.name, g.typeName f.type) := by rw [same]
      _ = ids.map s.fieldText := by
        rw [List.map_map]
        exact List.map_congr_left fun id _ => congrArg ((s.field id).name, ·) (type_name_retold _)
  exact congrArg Table.ofEntries texts

theorem field_notes_retold (place : String) : g.fieldNotes place ids' = s.fieldNotes place ids :=
  calc g.fieldNotes place ids'
    _ = (ids'.map g.field).flatMap fun f => (Note.descriptions f.notes).map fun text =>
        (s!"{place}.{f.name}", .description text) := by
      rw [List.flatMap_map]
      rfl
    _ = (ids.map s.retoldField).flatMap fun f => (Note.descriptions f.notes).map fun text =>
        (s!"{place}.{f.name}", .description text) := by rw [same]
    _ = s.fieldNotes place ids := by
      rw [List.flatMap_map]
      refine congrArg (List.flatMap · ids) (funext fun id => ?_)
      rw [retoldField, descriptions_described]

end Fields

theorem pair_le_iff {p q : String × String} :
    pairLe p q = true ↔ p.1 < q.1 ∨ p.1 = q.1 ∧ p.2 ≤ q.2 := by
  simp [pairLe]

theorem pair_le_trans (p q r : String × String) (first : pairLe p q = true) (second : pairLe q r = true) :
    pairLe p r = true := by
  rw [pair_le_iff] at first second ⊢
  rcases first with less | ⟨same, le⟩
  · rcases second with less' | ⟨same', _⟩
    · exact .inl (lt_trans less less')
    · exact .inl (same' ▸ less)
  · rcases second with less' | ⟨same', le'⟩
    · exact .inl (same ▸ less')
    · exact .inr ⟨same.trans same', le_trans le le'⟩

theorem pair_le_total (p q : String × String) : (pairLe p q || pairLe q p) = true := by
  rw [Bool.or_eq_true, pair_le_iff, pair_le_iff]
  rcases lt_trichotomy p.1 q.1 with less | same | less
  · exact .inl (.inl less)
  · exact (le_total p.2 q.2).imp (fun le => .inr ⟨same, le⟩) fun le => .inr ⟨same.symm, le⟩
  · exact .inr (.inl less)

theorem stored_again (a : Annotation) : storedNote (storedNote a) = storedNote a := by
  cases a with
  | rest m =>
    have headers := List.pairwise_mergeSort pair_le_trans pair_le_total m.headers
    have names : (m.queryVariables.mergeSort fun a b => decide (a ≤ b)).Pairwise
        fun a b => decide (a ≤ b) = true :=
      List.pairwise_mergeSort
        (fun a b c first second => by
          rw [decide_eq_true_eq] at first second ⊢
          exact le_trans first second)
        (fun a b => by
          rw [Bool.or_eq_true, decide_eq_true_eq, decide_eq_true_eq]
          exact le_total a b)
        m.queryVariables
    simp only [storedNote]
    rw [List.mergeSort_of_pairwise headers, List.mergeSort_of_pairwise names]
  | _ => rfl

theorem retold_contents (notes : List Note) (place : String) :
    (retoldNotes notes).map (fun n => (place, storedNote n.content)) =
      notes.map fun n => (place, storedNote n.content) := by
  rw [retoldNotes, List.map_map]
  exact List.map_congr_left fun n _ => congrArg (place, ·) (stored_again n.content)

theorem retold_operation_notes {o o' : Operation} (told : s.RetellsOperation g o o') :
    g.operationNotes o' = s.operationNotes o := by
  rw [operationNotes, operationNotes, told.name, told.notes, retold_contents,
    field_notes_retold told.args]

theorem retold_signature {o o' : Operation} (told : s.RetellsOperation g o o') :
    g.signature o' = s.signature o := by
  rw [signature, signature, field_texts_retold told.args, told.returns, type_name_retold]

namespace Projects

section Told

variable (projects : final.Projects d)

include projects

theorem told_other {base : TypeBase} (known : final.Known base) (other : ∀ kind, base ≠ .primitive kind) :
    final.told base = .reference (final.baseName base) {} := by
  have found : ∃ type, d.types.get? (final.baseName base) = some type := by
    cases base with
    | primitive kind => exact absurd rfl (other kind)
    | struct t =>
      exact projects.compiles.has_collected (mem_collected_struct.mpr (projects.listed_struct known))
    | enum e => exact projects.compiles.has_collected (mem_collected_enum.mpr (projects.listed_enum known))
    | reference name location =>
      obtain ⟨tree, named, expanded, stages⟩ := projects.stages
      obtain ⟨a, defined⟩ := Option.isSome_iff_exists.mp
        (stages.bound (treelike_of_tree tree).grounded name location known)
      obtain ⟨member, rfl⟩ := name_of_definition defined
      exact projects.compiles.has_definition member
  obtain ⟨type, found⟩ := found
  refine TypeText.base_of_other fun kind same => ?_
  have scalar := Codec.scalar_of_primitive kind
  rw [same, projects.compiles.not_scalar found] at scalar
  cases scalar

theorem told_primitive {base : TypeBase} (known : final.Known base) {kind : Primitive} :
    final.told base = .primitive kind ↔ base = .primitive kind := by
  constructor
  · intro same
    by_cases other : ∀ kind, base ≠ .primitive kind
    · rw [projects.told_other known other] at same
      cases same
    · obtain ⟨own, rfl⟩ := not_forall_not.mp other
      rwa [told, baseName, TypeText.base_of_primitive] at same
  · rintro rfl
    exact TypeText.base_of_primitive kind

theorem retold_void {t : TypeUse} (stated : final.Stated t) :
    (final.retold t).isPrimitive .void = t.isPrimitive .void := by
  rw [Bool.eq_iff_iff, is_primitive_iff, is_primitive_iff]
  obtain ⟨suffixes, base⟩ := t
  simp only [retold, TypeUse.primitive, TypeUse.ofBase, TypeUse.mk.injEq,
    projects.told_primitive stated.known]

end Told

variable (projects : final.Projects d) (recalls : final.Recalls g)

include recalls

theorem seat_entry {t : StructId} (member : t ∈ final.structOrder) :
    g.structEntry (final.structOrder.idxOf t) = final.structEntry t := by
  have name := recalls.names (.struct t) (mem_collected_struct.mpr member)
  rw [structEntry, structEntry, field_texts_retold (recalls.fields t member)]
  exact congrArg (·, _) name

include projects in
theorem seat_enum_entry {e : EnumId} (member : e ∈ final.enumOrder) :
    g.enumEntry (final.enumOrder.idxOf e) = final.enumEntry e := by
  have name := recalls.names (.enum e) (mem_collected_enum.mpr member)
  have members : g.enumMembers (g.enum (final.enumOrder.idxOf e)) = final.enumMembers (final.enum e) := by
    rw [enumMembers, recalls.values e member, List.map_map]
    refine List.map_congr_left fun v held => congrArg (v.text, ·) ?_
    cases data : v.data with
    | none => simp only [retoldValue, data]; rfl
    | some t =>
      have own := recalls.names (.struct t)
        (mem_collected_struct.mpr (projects.data_listed member held data))
      simp only [retoldValue, data]
      exact congrArg some own
  rw [enumEntry, enumEntry, members]
  exact congrArg (·, _) name

theorem seat_notes {t : StructId} (member : t ∈ final.structOrder) :
    g.structNotes (final.structOrder.idxOf t) = final.structNotes t := by
  have name : (g.struct (final.structOrder.idxOf t)).name = (final.struct t).name :=
    recalls.names (.struct t) (mem_collected_struct.mpr member)
  rw [structNotes, structNotes, name, field_notes_retold (recalls.fields t member)]

theorem aliases_again : g.aliases = final.aliasTexts.map textDefinition := by
  rw [aliases, recalls.definitions, List.filter_append, List.filter_eq_nil_iff.mpr, List.nil_append,
    List.filter_eq_self.mpr]
  · intro a member
    obtain ⟨entry, _, rfl⟩ := List.mem_map.mp member
    rw [Bool.not_eq_true', Bool.eq_false_iff, Ne, is_nested_iff]
    exact fun nested => not_nested_read entry.2 nested.2
  · intro a member
    obtain ⟨base, listed, rfl⟩ := List.mem_map.mp member
    have nested : (final.seatDefinition base).type.isNested = true :=
      is_nested_iff.mpr ⟨rfl, seat_nested listed⟩
    simp [nested]

include projects

theorem collected_entries_again (grounded : g.Grounded) :
    g.collectTypes.collectedEntries = final.collectedEntries := by
  obtain ⟨structs, enums⟩ := projects.orders recalls.toRetells grounded
  rw [collectedEntries, structs, enums, ← map_idx_of projects.struct_order_nodup,
    ← map_idx_of projects.enum_order_nodup, List.map_map, List.map_map, collectedEntries]
  congr 1
  · exact List.map_congr_left fun t member => seat_entry recalls member
  · exact List.map_congr_left fun e member => projects.seat_enum_entry recalls member

theorem placed_notes_again (grounded : g.Grounded) : g.collectTypes.placedNotes = final.placedNotes := by
  obtain ⟨structs, _⟩ := projects.orders recalls.toRetells grounded
  rw [placedNotes, structs, ← map_idx_of projects.struct_order_nodup, List.flatMap_map, placedNotes]
  congr 1
  · congr 1
    · exact List.flatMap_congr fun t member => seat_notes recalls member
    · have notes := map_eq_of_forall recalls.operations fun o o' told => (retold_operation_notes told).symm
      rw [List.flatMap_def, List.flatMap_def]
      exact congrArg List.flatten notes.symm
  · have errors : g.collectTypes.errors = final.errors.map final.retoldError := recalls.errors
    rw [errors, List.flatMap_map]
    exact congrArg (List.flatMap · final.errors) (funext fun e => retold_contents e.notes _)

theorem types_again (grounded : g.Grounded) :
    g.collectTypes.definitions.foldl g.collectTypes.addDefinitionEntry g.collectTypes.collectedEntries =
      d.types := by
  have own : g.aliases = final.aliasTexts.map textDefinition := aliases_again recalls
  have same : g.collectTypes.aliases = final.aliasTexts.map textDefinition := own
  have free : ∀ entry ∈ final.aliasTexts, entry.1 ∉ final.collectedEntries.keys := by
    intro entry written taken
    rw [collected_entries_keys] at taken
    obtain ⟨a, member, rfl⟩ := List.mem_map.mp (Table.mem_of_mem_ofEntries written)
    obtain ⟨base, listed, named⟩ := List.mem_map.mp taken
    exact projects.unclashed base listed ⟨a, member, named.symm⟩
  have added := Table.foldl_insert_append Prod.fst (fun entry => TypeDescription.text entry.2) free []
  have texts : final.aliasTexts.foldl
      (fun types entry => Table.insert types entry.1 (TypeDescription.text entry.2)) [] =
        final.aliasTexts.map fun entry => (entry.1, .text entry.2) := by
    have distinct : ((final.aliasTexts.map fun entry =>
        (entry.1, TypeDescription.text entry.2)).map (·.1)).Nodup := by
      rw [List.map_map]
      exact Table.ofEntries_distinct _
    have all := Table.ofEntries_of_nodup distinct
    rwa [Table.ofEntries, List.foldl_map] at all
  rw [add_definitions_eq, same, List.foldl_map, projects.collected_entries_again recalls grounded]
  simp only [textDefinition, type_name_read]
  rw [List.append_nil, texts] at added
  rw [added, projects.types_eq, table_of_texts]

theorem errors_again : g.errors.map g.errorEntry = final.errors.map final.errorEntry := by
  rw [recalls.errors, List.map_map]
  refine List.map_congr_left fun e member => ?_
  simp only [Function.comp, errorEntry, retoldError, type_name_retold,
    projects.retold_void (.error member)]

theorem document_again (grounded : g.Grounded) : g.collectTypes.document = .ok d := by
  have distinct : (g.collectTypes.collected.map g.collectTypes.baseName).Nodup := by
    rw [← collected_entries_keys, projects.collected_entries_again recalls grounded, collected_entries_keys]
    exact projects.collected_names
  have operations : g.operations.map (fun o => (o.name, g.signature o)) =
      final.operations.map fun o => (o.name, final.signature o) :=
    (map_eq_of_forall recalls.operations fun o o' told => by
      rw [told.name, retold_signature told]).symm
  have errors := projects.errors_again recalls
  have written := projects.compiles.document
  rw [document, type_entries_eq projects.collected_names] at written
  rw [document, type_entries_eq distinct, projects.types_again recalls grounded,
    projects.placed_notes_again recalls grounded, ← written, projects.compiles.types]
  change Except.ok (Document.mk _ (g.errors.map g.errorEntry)
    (Table.ofEntries (g.operations.map fun o => (o.name, g.signature o))) _) = _
  rw [operations, errors]
  rfl

end Projects

end Rewriting

end Schema

end ApiSchema
