import ApiSchema.Proofs.Tree.Grammar

/-! What is said about the arguments of a function is moved onto them, one note after the other. -/

namespace ApiSchema

namespace Grammar

variable {note : Note} {notes : List Note} {ms : List MemberTree} {name text : String}

theorem field_names_described (notes : List Note) (ms : List MemberTree) :
    MemberTree.fieldNames (ms.map (described notes)) = MemberTree.fieldNames ms := by
  rw [MemberTree.fieldNames, List.filterMap_map]
  refine List.filterMap_congr fun m _ => ?_
  cases m with
  | field f =>
    cases f
    rfl
  | spread => rfl

theorem described_nil (m : MemberTree) : described [] m = m := by
  cases m with
  | field f =>
    cases f
    simp [described]
  | spread => rfl

theorem described_cons (note : Note) (notes : List Note) (m : MemberTree) :
    described (note :: notes) m = described notes (described [note] m) := by
  cases m with
  | field f =>
    obtain ⟨name, type, secret, own, location⟩ := f
    simp only [described, List.append_assoc, ← List.filterMap_append, List.singleton_append]
  | spread => rfl

theorem described_other (other : isAboutArgument note = false) (m : MemberTree) :
    described (note :: notes) m = described notes m := by
  have silent : ∀ name, describes? name note = none := by
    intro name
    obtain ⟨content, location⟩ := note
    cases content with
    | argument => cases other
    | _ => rfl
  cases m with
  | field f =>
    cases f
    simp only [described, List.filterMap_cons, silent]
  | spread => rfl

theorem described_absent (about : note.content = .argument name text)
    (absent : name ∉ MemberTree.fieldNames ms) : ms.map (described [note]) = ms := by
  refine (List.map_congr_left fun m member => ?_).trans (List.map_id _)
  cases m with
  | field f =>
    obtain ⟨other, type, secret, own, location⟩ := f
    have apart : other ≠ name := fun same =>
      absent (List.mem_filterMap.mpr ⟨_, member, by rw [← same]; rfl⟩)
    simp only [described, describes?, about, if_neg apart, List.filterMap_cons, List.filterMap_nil,
      List.append_nil, id]
  | spread => rfl

end Grammar

namespace Parser

open Grammar

variable {note : Note} {name text : String} {ms : List MemberTree}

theorem describe_argument_eq (about : note.content = .argument name text)
    (distinct : (MemberTree.fieldNames ms).Nodup) :
    describeArgument name (.describe text note.location) ms =
      if name ∈ MemberTree.fieldNames ms then some (ms.map (described [note])) else none := by
  induction ms with
  | nil => rfl
  | cons m rest ih =>
    cases m with
    | field f =>
      obtain ⟨other, type, secret, own, location⟩ := f
      change (other :: MemberTree.fieldNames rest).Nodup at distinct
      rw [List.nodup_cons] at distinct
      change (if other = name then _ else _) =
        if name ∈ other :: MemberTree.fieldNames rest then _ else _
      by_cases same : other = name
      · subst same
        rw [if_pos rfl, if_pos (List.mem_cons_self ..), List.map_cons, described_absent about distinct.1]
        simp only [described, describes?, about, if_true, List.filterMap_cons, List.filterMap_nil]
        rfl
      · have apart : ([note].filterMap (describes? other)) = [] := by
          simp only [describes?, about, if_neg same, List.filterMap_cons, List.filterMap_nil]
        rw [if_neg same, ih distinct.2]
        simp only [List.mem_cons, Ne.symm same, false_or, List.map_cons, described, apart,
          List.append_nil]
        split <;> rfl
    | spread target nameLocation location =>
      change Option.map _ (describeArgument name _ rest) =
        if name ∈ MemberTree.fieldNames rest then _ else _
      rw [ih distinct]
      split <;> rfl

theorem distribute_notes_eq (notes : List Note) (distinct : (MemberTree.fieldNames ms).Nodup) :
    (Targets notes ms →
      distributeNotes notes ms = pure (notes.filter (!isAboutArgument ·), ms.map (described notes))) ∧
    (¬ Targets notes ms → ∃ fault location, distributeNotes notes ms = fail fault location) := by
  induction notes generalizing ms with
  | nil =>
    refine ⟨fun _ => ?_, fun missing => absurd nofun missing⟩
    rw [List.map_congr_left fun m _ => described_nil m, List.map_id']
    rfl
  | cons note rest ih =>
    obtain ⟨content, location⟩ := note
    have others : Targets (⟨content, location⟩ :: rest) ms → Targets rest ms :=
      fun targets note member => targets note (List.mem_cons_of_mem _ member)
    by_cases about : ∃ name text, content = .argument name text
    · obtain ⟨name, text, rfl⟩ := about
      rw [distributeNotes]
      dsimp only
      have moved : describeArgument name (.describe text location) ms = _ :=
        @describe_argument_eq ⟨.argument name text, location⟩ name text ms rfl distinct
      rw [moved]
      by_cases named : name ∈ MemberTree.fieldNames ms
      · rw [if_pos named]
        have same : Targets (⟨.argument name text, location⟩ :: rest) ms ↔
            Targets rest (ms.map (described [⟨.argument name text, location⟩])) := by
          unfold Targets
          rw [field_names_described, List.forall_mem_cons]
          refine and_iff_right fun argument text same => ?_
          cases same
          exact named
        have moved := @ih (ms.map (described [⟨.argument name text, location⟩]))
          (by rwa [field_names_described])
        rw [same]
        refine ⟨fun targets => (moved.1 targets).trans ?_, moved.2⟩
        rw [List.map_map]
        congr 2
        exact List.map_congr_left fun m _ => (described_cons _ rest m).symm
      · rw [if_neg named]
        exact ⟨fun targets => absurd (targets _ (List.mem_cons_self ..) name text rfl) named,
          fun _ => ⟨_, _, rfl⟩⟩
    · have other : isAboutArgument ⟨content, location⟩ = false := by
        cases content with
        | argument name text => exact absurd ⟨name, text, rfl⟩ about
        | _ => rfl
      have same : Targets (⟨content, location⟩ :: rest) ms ↔ Targets rest ms := by
        refine ⟨others, fun targets note member => ?_⟩
        rcases List.mem_cons.mp member with rfl | later
        · exact fun argument text same => absurd ⟨argument, text, same⟩ about
        · exact targets note later
      have step : distributeNotes (⟨content, location⟩ :: rest) ms =
          distributeNotes rest ms >>= fun result => pure (⟨content, location⟩ :: result.1, result.2) := by
        cases content with
        | argument name text => exact absurd ⟨name, text, rfl⟩ about
        | _ => rfl
      rw [step, same]
      obtain ⟨moved, missing⟩ := ih distinct
      refine ⟨fun targets => ?_, fun absent => ?_⟩
      · rw [moved targets, pure_bind, List.filter_cons_of_pos (by rw [other]; rfl),
          List.map_congr_left fun m _ => described_other other m]
      · obtain ⟨fault, place, failed⟩ := missing absent
        exact ⟨fault, place, by rw [failed]; rfl⟩

end Parser

end ApiSchema
