import ApiSchema.Proofs.Compatibility.Transmission
import ApiSchema.Proofs.Document.Describing

/-! What an empty report means for what is sent between two versions of a schema: the other side
decodes it, unless a member that has lost its data is sent with its data. -/

namespace ApiSchema

open Codec

namespace Schema

def typesWritten (s : Schema) : List TypeUse :=
  s.definitions.map (·.type) ++ s.errors.map (·.data) ++ s.operations.map (·.returns) ++
    s.fields.toList.map (·.type)

def Moneyless (s : Schema) : Prop := ∀ t ∈ s.typesWritten, t.base ≠ .primitive .money

instance (s : Schema) : Decidable s.Moneyless :=
  inferInstanceAs (Decidable (∀ t ∈ s.typesWritten, t.base ≠ .primitive .money))

variable {s : Schema} {d : Document}

theorem Moneyless.field (moneyless : s.Moneyless) (id : FieldId) :
    (s.field id).type.base ≠ .primitive .money := by
  by_cases inside : id < s.fields.size
  · exact moneyless _ (List.mem_append_right _ (List.mem_map_of_mem (field_mem inside)))
  · rw [field_of_size_le (Nat.le_of_not_lt inside)]
    decide

theorem Moneyless.declares (moneyless : s.Moneyless) {base : TypeBase} (declared : s.Declares base) :
    base ≠ .primitive .money := by
  cases declared with
  | definition member =>
    refine moneyless _ (List.mem_append_left _ (List.mem_append_left _ ?_))
    exact List.mem_append_left _ (List.mem_map_of_mem member)
  | error member =>
    refine moneyless _ (List.mem_append_left _ (List.mem_append_left _ ?_))
    exact List.mem_append_right _ (List.mem_map_of_mem member)
  | argument => exact moneyless.field _
  | spread => exact nofun
  | returns member =>
    refine moneyless _ (List.mem_append_left _ (List.mem_append_right _ ?_))
    exact List.mem_map_of_mem member

theorem Moneyless.not_known (moneyless : s.Moneyless) : ¬ s.Known (.primitive .money) := by
  intro known
  have leads : ∀ first next, first ≠ .primitive .money → s.Leads first next →
      next ≠ .primitive .money := by
    intro first next _ leads
    cases leads with
    | reference defined => exact moneyless.declares (.definition (name_of_definition defined).1)
    | field => exact moneyless.field _
    | spread => exact nofun
    | value => exact nofun
  exact Known.induction (fun _ declared => moneyless.declares declared) leads known rfl

namespace Compiles

theorem navigable (compiles : s.Compiles d) : s.Navigable := by
  obtain ⟨files, file, source, tree, parsed, accepted⟩ := compiles.accepted
  obtain ⟨named, expanded, stages⟩ := accepted_of_analyse accepted
  have treelike := treelike_of_tree tree
  exact ⟨stages.resolved treelike.grounded, stages.trails treelike.grounded⟩

theorem sendable (compiles : s.Compiles d) (moneyless : s.Moneyless) : Transfer.Sendable s :=
  ⟨moneyless.not_known, compiles.distinct_fields.1⟩

end Compiles

end Schema

section Conveying

variable [urls : UrlNormaliser]

/-- Whatever is encoded for the first type is decoded for the second one, exactly if it is not
misread there; for that, something must have been lost. -/
def Conveys (sender receiver : TypeTable) (sent received : Value) (misread : Value → Prop)
    (lost : Prop) : Prop :=
  ∀ path value transmitted, value.Sound → encode sender path sent value = .ok transmitted →
    (∀ place, (∃ taken, decode receiver place received transmitted = .ok taken) ↔
      ¬ misread transmitted) ∧ (misread transmitted → lost)

theorem conveyed_of_cases {receiver : TypeTable} {received transmitted : Value} {misread lost : Prop}
    (refused : misread → ∀ place taken, decode receiver place received transmitted ≠ .ok taken)
    (outcome : (∀ place, ∃ taken, decode receiver place received transmitted = .ok taken) ∨
      misread ∧ lost) :
    (∀ place, (∃ taken, decode receiver place received transmitted = .ok taken) ↔ ¬ misread) ∧
      (misread → lost) := by
  constructor
  · intro place
    constructor
    · rintro ⟨taken, decoded⟩ wrong
      exact refused wrong place taken decoded
    · intro clear
      rcases outcome with decoded | ⟨wrong, _⟩
      · exact decoded place
      · exact absurd wrong clear
  · intro wrong
    rcases outcome with decoded | ⟨_, lost⟩
    · obtain ⟨taken, decoded⟩ := decoded ""
      exact absurd decoded (refused wrong "" taken)
    · exact lost

namespace Transfer

variable {x : Transfer} {met : List Meeting} {sender receiver : TypeTable}

theorem conveys_type (stable : urls.Stable) (describes : Describes sender x.sender) (describes' : Describes receiver x.receiver)
    (closed : x.Closed met) (sendable : Sendable x.sender) (navigable : x.receiver.Navigable)
    {sent received : TypeUse} (fits : x.Fits met sent received) (known : x.sender.Known sent.base)
    (known' : x.receiver.Known received.base) :
    Conveys sender receiver (.string (x.sender.typeName sent)) (.string (x.receiver.typeName received))
      (Misread x.receiver received) x.Loses := by
  intro path value transmitted sound encoded
  have allowed : Sent x.sender sent transmitted := (sends_within describes _).named known sound encoded
  apply conveyed_of_cases
  · intro misread place taken
    exact refused_of_misread describes' misread place taken known'
  · have outcome := understood stable closed sendable navigable _ _ (Nat.le_refl _) fits known known' allowed
    refine outcome.imp_left fun taken place => ?_
    obtain ⟨value, decoded, _⟩ := decodes_of_taken describes' taken place known'
    exact ⟨value, decoded⟩

theorem conveys_fields (stable : urls.Stable) (describes : Describes sender x.sender)
    (describes' : Describes receiver x.receiver) (closed : x.Closed met)
    (sendable : Sendable x.sender) (navigable : x.receiver.Navigable) {sent received : List FieldId}
    (distinct : x.sender.DistinctNames sent)
    (fills : ∀ f ∈ received.map x.receiver.field, x.Fills met (sent.map x.sender.field) f)
    (known : ∀ id ∈ sent, x.sender.Known (x.sender.field id).type.base)
    (known' : ∀ id ∈ received, x.receiver.Known (x.receiver.field id).type.base) :
    Conveys sender receiver (recordType x.sender sent) (recordType x.receiver received)
      (MisreadFields x.receiver received) x.Loses := by
  intro path value transmitted sound encoded
  obtain ⟨item, rfl, allowed⟩ := (sends_within describes _).record known sound encoded
  have fields : ∀ id ∈ received, x.Understood (x.receiver.field id).type ((Value.get?
      (sent.map fun id => (.string (x.sender.field id).name, item id))
      (.string (x.receiver.field id).name)).getD .null) := by
    intro id member
    refine field_understood navigable distinct (known' id member)
      (fills _ (List.mem_map_of_mem member)) fun own held fits => ?_
    exact understood stable closed sendable navigable _ _ (Nat.le_refl _) fits (known own held)
      (known' id member) (allowed own held)
  apply conveyed_of_cases
  · rintro ⟨_, ⟨⟩, id, member, wrong⟩ place taken
    exact record_refused describes' member fun place taken =>
      refused_of_misread describes' wrong place taken (known' id member)
  · refine (understood_cases fields).imp (fun taken place => ?_) fun ⟨wrong, lost⟩ =>
      ⟨⟨_, rfl, wrong⟩, lost⟩
    obtain ⟨out, decoded⟩ := decode_record describes' (fun id member place => by
      obtain ⟨value, decoded, _⟩ := decodes_of_taken describes' (taken id member) place
        (known' id member)
      exact ⟨value, decoded⟩) place
    exact ⟨_, decoded⟩

end Transfer

end Conveying

namespace Compatibility

open Document

variable {old new : Schema} {before after : Document} {met : List Meeting}

/-- If no issue is found between two versions without money, the server decodes the arguments of
older clients, and these decode results and errors, unless a member has lost its data. -/
theorem compatible_conveys [urls : UrlNormaliser] (stable : urls.Stable)
    (older : old.Compiles before) (newer : new.Compiles after)
    (oldMoneyless : old.Moneyless) (newMoneyless : new.Moneyless) (oldUnclashed : old.Unclashed)
    (newUnclashed : new.Unclashed) (oldUnsuffixed : before.Unsuffixed)
    (newUnsuffixed : after.Unsuffixed) (compatible : issues old new = []) :
    (∀ name earlier, before.operations.get? name = some earlier →
      ∃ o ∈ old.operations, ∃ p ∈ new.operations, ∃ later, o.name = name ∧ p.name = name ∧
        earlier = old.ownSignature o ∧ later = new.ownSignature p ∧
        after.operations.get? name = some later ∧
        Conveys before.table after.table (textTable earlier.args) (textTable later.args)
          (MisreadFields new p.args) (toServer old new).Loses ∧
        Conveys after.table before.table (.string later.returns) (.string earlier.returns)
          (Misread old o.returns) (toClient old new).Loses) ∧
      ∀ e ∈ old.errors, ∀ later, laterError? new e = some later →
        Conveys after.table before.table (.string (new.typeName later.data))
          (.string (old.typeName e.data)) (Misread old e.data) (toClient old new).Loses := by
  have agrees := agrees_of_issues older.navigable newer.navigable compatible
  have describes := older.describes oldUnclashed oldUnsuffixed
  have describes' := newer.describes newUnclashed newUnsuffixed
  constructor
  · intro name earlier found
    rw [older.get_operation] at found
    obtain ⟨o, last, rfl⟩ := Option.map_eq_some_iff.mp found
    have member : o ∈ old.operations := List.mem_reverse.mp (List.mem_of_find?_eq_some last)
    have named : o.name = name := by simpa using List.find?_some last
    obtain ⟨p, successor, returns, fills⟩ := agrees.operations o member
    obtain ⟨member', named'⟩ := mem_of_successor successor
    refine ⟨o, member, p, member', _, named, named'.trans named, rfl, rfl, ?_, ?_, ?_⟩
    · rw [newer.get_operation, ← named, ← successor?, successor]
      rfl
    · simp only [Schema.ownSignature, text_table_eq]
      exact Transfer.conveys_fields (x := toServer old new) stable describes describes' agrees.closed.1
        (older.sendable oldMoneyless) newer.navigable (older.distinct_fields.2 o member) fills
        (fun id held => Schema.known_of_declares (.argument member (.inr held)))
        fun id held => Schema.known_of_declares (.argument member' (.inr held))
    · exact Transfer.conveys_type (x := toClient old new) stable describes' describes agrees.closed.2
        (newer.sendable newMoneyless) older.navigable returns
        (Schema.known_of_declares (.returns member')) (Schema.known_of_declares (.returns member))
  · intro e member later found
    exact Transfer.conveys_type (x := toClient old new) stable describes' describes agrees.closed.2
      (newer.sendable newMoneyless) older.navigable (agrees.errors e member later found)
      (Schema.known_of_declares (.error (mem_of_later_error found).1))
      (Schema.known_of_declares (.error member))

def shapes : String × String :=
  ("type Shape enum \x7b dot, circle \x7b radius: float \x7d \x7d\nfn area(shape: Shape): float",
   "type Shape enum \x7b dot, circle \x7b radius: float?, name: string? \x7d, square \x7b side: float \x7d \x7d
fn area(shape: Shape, unit: string?): float")

theorem shapes_convey : ∃ urls : UrlNormaliser, urls.Stable ∧
    ∃ old new before after earlier later, ∃ p ∈ new.operations,
    old.Compiles before ∧ new.Compiles after ∧ before.operations.get? "area" = some earlier ∧
      after.operations.get? "area" = some later ∧
        Conveys before.table after.table (textTable earlier.args) (textTable later.args)
          (MisreadFields new p.args) (toServer old new).Loses := by
  let urls : UrlNormaliser := .refusing
  have stable : urls.Stable := UrlNormaliser.refusing_stable
  have checked : ((Schema.compiled? shapes.1).bind fun old =>
      (Schema.compiled? shapes.2).map fun new =>
        decide (old.1.Moneyless ∧ new.1.Moneyless ∧ old.1.Unclashed ∧ new.1.Unclashed ∧
          old.2.Unsuffixed ∧ new.2.Unsuffixed ∧ (issues old.1 new.1).isEmpty ∧
            (old.2.operations.get? "area").isSome)) = some true := by
    simp only [Schema.compiled?, SchemaTree.parse_by_chars]
    decide +kernel
  obtain ⟨⟨old, before⟩, found, checked⟩ := Option.bind_eq_some_iff.mp checked
  obtain ⟨⟨new, after⟩, found', checked⟩ := Option.map_eq_some_iff.mp checked
  obtain ⟨oldMoneyless, newMoneyless, oldUnclashed, newUnclashed, oldUnsuffixed, newUnsuffixed,
    compatible, present⟩ := of_decide_eq_true checked
  have older := Schema.compiles_of_compiled found
  have newer := Schema.compiles_of_compiled found'
  obtain ⟨earlier, known⟩ := Option.isSome_iff_exists.mp present
  obtain ⟨o, _, p, member, later, _, _, _, _, found, conveys, _⟩ :=
    (compatible_conveys stable older newer oldMoneyless newMoneyless oldUnclashed newUnclashed oldUnsuffixed
      newUnsuffixed (List.isEmpty_iff.mp compatible)).1 "area" earlier known
  exact ⟨urls, stable, old, new, before, after, earlier, later, p, member, older, newer, known, found,
    conveys⟩

/-- No issue is found when a member loses its data, and then arguments with its data are refused. -/
theorem lost_data_refused : ∃ urls : UrlNormaliser, urls.Stable ∧
    ((Schema.compiled? "type E enum \x7b a \x7b x: int \x7d \x7d\nfn f(e: E)").bind fun (old, before) =>
      (Schema.compiled? "type E enum \x7b a \x7d\nfn f(e: E)").bind fun (new, after) => do
        let earlier ← before.operations.get? "f"
        let later ← after.operations.get? "f"
        let data := Value.mapping [(.string "tag", .string "a"), (.string "x", .int 1)]
        let sent ← (encode before.table "f.args" (textTable earlier.args)
          (.mapping [(.string "e", data)])).toOption
        let taken := decode after.table "f.args" (textTable later.args) sent
        return (decide (old.Moneyless ∧ new.Moneyless), issues old new, taken.isOk)) =
      some (true, [], false) := by
  refine ⟨.refusing, UrlNormaliser.refusing_stable, ?_⟩
  simp only [Schema.compiled?, SchemaTree.parse_by_chars]
  decide +kernel

end Compatibility

end ApiSchema
