import ApiSchema.Compatibility
import ApiSchema.Proofs.Analysis.Trails

/-! What a part of a comparison establishes, given that in the end nothing is reported and only some
structs have met. -/

namespace ApiSchema

/-- From some findings a comparison comes to others. If these report nothing, and only structs have
met that meet in the whole comparison, then `fact` holds, and so does `joined` for each new
meeting. -/
structure Establishes (met : List Meeting) (joined : Meeting → Prop) (f g : Findings) (fact : Prop) :
    Prop where
  grows : f.met ⊆ g.met
  clean : g.issues = [] → f.issues = []
  joins : g.issues = [] → g.met ⊆ met → ∀ m ∈ g.met, m ∈ f.met ∨ joined m
  holds : g.issues = [] → g.met ⊆ met → fact

namespace Establishes

variable {met : List Meeting} {joined joined' : Meeting → Prop} {f g h : Findings} {p q : Prop}

theorem still (fact : p) : Establishes met joined f f p where
  grows _ := id
  clean := id
  joins _ _ _ := .inl
  holds _ _ := fact

theorem mono (found : Establishes met joined f g p) (weaker : p → q) :
    Establishes met joined f g q where
  grows := found.grows
  clean := found.clean
  joins := found.joins
  holds none within := weaker (found.holds none within)

theorem weaken (found : Establishes met joined f g p) (weaker : ∀ m, joined m → joined' m) :
    Establishes met joined' f g p where
  grows := found.grows
  clean := found.clean
  joins none within m member := (found.joins none within m member).imp_right (weaker m)
  holds := found.holds

theorem andThen (first : Establishes met joined f g p) (second : Establishes met joined g h q) :
    Establishes met joined f h (p ∧ q) where
  grows := List.Subset.trans first.grows second.grows
  clean none := first.clean (second.clean none)
  joins none within m member := by
    rcases second.joins none within m member with old | new
    · exact first.joins (second.clean none) (List.Subset.trans second.grows within) m old
    · exact .inr new
  holds none within :=
    ⟨first.holds (second.clean none) (List.Subset.trans second.grows within),
      second.holds none within⟩

theorem reported (path : String) (breakage : Breakage)
    (later : Establishes met joined (f.report path breakage) g p) : Establishes met joined f g q where
  grows := later.grows
  clean none := by
    have some := later.clean none
    simp [Findings.report] at some
  joins none := by
    have some := later.clean none
    simp [Findings.report] at some
  holds none := by
    have some := later.clean none
    simp [Findings.report] at some

theorem report (path : String) (breakage : Breakage) :
    Establishes met joined f (f.report path breakage) p :=
  .reported path breakage (.still trivial)

theorem meets {m : Meeting} (later : Establishes met joined (f.meet m) g p) (join : p → joined m) :
    Establishes met joined f g (m ∈ met) where
  grows := fun _ member => later.grows (List.mem_cons_of_mem _ member)
  clean := later.clean
  joins none within other member := by
    rcases later.joins none within other member with old | new
    · rcases List.mem_cons.mp old with rfl | before
      · exact .inr (join (later.holds none within))
      · exact .inl before
    · exact .inr new
  holds _ within := within (later.grows (List.mem_cons_self ..))

theorem foldl {α : Type} {step : Findings → α → Findings} {done : α → Prop} {items : List α}
    (each : ∀ g, f.met ⊆ g.met → ∀ a ∈ items, Establishes met joined g (step g a) (done a)) :
    Establishes met joined f (items.foldl step f) (∀ a ∈ items, done a) := by
  induction items generalizing f with
  | nil => exact .still (by simp)
  | cons a rest ih =>
    have first := each f (fun _ => id) a (List.mem_cons_self ..)
    have others := ih fun g further b member =>
      each g (List.Subset.trans first.grows further) b (List.mem_cons_of_mem _ member)
    refine (first.andThen others).mono ?_
    rintro ⟨holds, hold⟩ b member
    rcases List.mem_cons.mp member with rfl | later
    · exact holds
    · exact hold b later

end Establishes

end ApiSchema

/-! Types that fit: what is sent for one of them can be received for the other one, as far as the
types themselves say. A comparison that reports nothing has found that its types fit. -/

namespace ApiSchema

namespace Schema

/-- The references behind the declarations have types, and lead to an end. -/
structure Navigable (s : Schema) : Prop where
  resolved : s.Resolved
  trails : ∀ {base}, s.Known base → ∃ ds, s.Trail base ds

/-- A type as it is written in a declaration or a field. -/
inductive Written (s : Schema) : TypeUse → Prop where
  | field (id : FieldId) : Written s (s.field id).type
  | returns {o} (member : o ∈ s.operations) : Written s o.returns
  | data {e} (member : e ∈ s.errors) : Written s e.data

variable {s : Schema}

theorem suffixes_le_total {α : Type} (typeOf : α → TypeUse) {items : List α} {a : α}
    (member : a ∈ items) :
    (typeOf a).suffixes.length ≤ total ((items.map typeOf).map (·.suffixes.length)) :=
  List.le_sum_of_mem (List.mem_map_of_mem (List.mem_map_of_mem member))

theorem ahead_le_count {t : TypeUse} {ds : List Definition} (written : s.Written t)
    (trail : s.Trail t.base ds) : suffixesAhead t ds ≤ s.suffixCount := by
  have passed : total (ds.map (·.type.suffixes.length)) ≤
      total ((s.definitions.map (·.type)).map (·.suffixes.length)) := by
    rw [List.map_map]
    exact trail.total_le (·.type.suffixes.length)
  unfold suffixesAhead suffixCount
  dsimp only
  cases written with
  | field id =>
    by_cases inside : id < s.fields.size
    · have own := suffixes_le_total (·.type) (field_mem inside)
      omega
    · rw [field_of_size_le (Nat.le_of_not_lt inside)]
      have bare : (default : Field).type.suffixes.length = 0 := rfl
      omega
  | returns member =>
    have own := suffixes_le_total (·.returns) member
    omega
  | data member =>
    have own := suffixes_le_total (·.data) member
    omega

theorem written_of_data_fields {t : Option StructId} {f : Field} (member : f ∈ s.dataFields t) :
    s.Written f.type := by
  cases t with
  | none => cases member
  | some t =>
    obtain ⟨id, _, rfl⟩ := List.mem_map.mp member
    exact .field id

theorem known_of_data_fields {t : Option StructId} {f : Field}
    (known : ∀ u ∈ t, s.Known (.struct u)) (member : f ∈ s.dataFields t) : s.Known f.type.base := by
  cases t with
  | none => cases member
  | some t =>
    obtain ⟨id, held, rfl⟩ := List.mem_map.mp member
    exact (known t rfl).reaches (.single (.field (.inr held)))

theorem inside_of_data_fields {t : Option StructId} {f : Field} (member : f ∈ s.dataFields t) :
    ∀ u ∈ t, u < s.structs.size := by
  rintro u rfl
  obtain ⟨id, held, rfl⟩ := List.mem_map.mp member
  exact holds_inside (.inr held)

end Schema

theorem mem_of_last_field {fields : List Field} {name : String} {f : Field}
    (found : lastField? fields name = some f) : f ∈ fields ∧ f.name = name := by
  have named := List.find?_some found
  exact ⟨List.mem_reverse.mp (List.mem_of_find?_eq_some found), by simpa using named⟩

theorem mem_of_last_value {values : List EnumValue} {text : String} {v : EnumValue}
    (found : lastValue? values text = some v) : v ∈ values ∧ v.text = text := by
  have named := List.find?_some found
  exact ⟨List.mem_reverse.mp (List.mem_of_find?_eq_some found), by simpa using named⟩

namespace Transfer

/-- The second type takes what is sent for the first one, if the structs among the meetings do. -/
inductive Fits (x : Transfer) (met : List Meeting) : TypeUse → TypeUse → Prop where
  | sentName {name location d received} (defined : x.sender.definition? name = some d)
    (further : Fits x met d.type received) : Fits x met ⟨[], .reference name location⟩ received
  | receivedName {sent name location d} (defined : x.receiver.definition? name = some d)
    (further : Fits x met sent d.type) : Fits x met sent ⟨[], .reference name location⟩
  | admitted {sent rest base} (inner : Fits x met sent ⟨rest, base⟩) :
    Fits x met sent ⟨.optional :: rest, base⟩
  | optional {rest base rest' base'} (inner : Fits x met ⟨rest, base⟩ ⟨rest', base'⟩) :
    Fits x met ⟨.optional :: rest, base⟩ ⟨.optional :: rest', base'⟩
  | array {rest base rest' base'} (inner : Fits x met ⟨rest, base⟩ ⟨rest', base'⟩) :
    Fits x met ⟨.array :: rest, base⟩ ⟨.array :: rest', base'⟩
  | struct {t u} (meets : ⟨x.direction, some t, some u⟩ ∈ met) :
    Fits x met ⟨[], .struct t⟩ ⟨[], .struct u⟩
  | enum {e i} (values : ∀ v ∈ (x.sender.enum e).values,
      ∃ w, lastValue? (x.receiver.enum i).values v.text = some w ∧
        ⟨x.direction, v.data, w.data⟩ ∈ met) :
    Fits x met ⟨[], .enum e⟩ ⟨[], .enum i⟩
  | primitive {k l} (widens : k = l ∨ k.widensTo l = true) :
    Fits x met ⟨[], .primitive k⟩ ⟨[], .primitive l⟩
  | text {e} (bare : ∀ v ∈ (x.sender.enum e).values, v.data = none) :
    Fits x met ⟨[], .enum e⟩ ⟨[], .primitive .string⟩

/-- A field is filled by the field of its name, and else may be missing. -/
def Fills (x : Transfer) (met : List Meeting) (sent : List Field) (received : Field) : Prop :=
  match lastField? sent received.name with
  | some f => x.Fits met f.type received.type
  | none => x.receiver.admitsNull received.type = true

def Joins (x : Transfer) (met : List Meeting) (m : Meeting) : Prop :=
  m.direction = x.direction ∧
    ∀ f ∈ x.receiver.dataFields m.received, x.Fills met (x.sender.dataFields m.sent) f

/-- All structs that met, met because their fields are filled. -/
def Closed (x : Transfer) (met : List Meeting) : Prop :=
  ∀ t u, ⟨x.direction, t, u⟩ ∈ met →
    ∀ f ∈ x.receiver.dataFields u, x.Fills met (x.sender.dataFields t) f

def meetings (x : Transfer) : List Meeting :=
  (none :: (List.range x.sender.structs.size).map some).flatMap fun sent =>
    (none :: (List.range x.receiver.structs.size).map some).map fun received =>
      ⟨x.direction, sent, received⟩

def room (x : Transfer) (f : Findings) : Nat := x.meetings.countP fun m => !f.met.contains m

variable {x : Transfer} {met : List Meeting} {f g : Findings}

theorem meetings_length (x : Transfer) :
    x.meetings.length = (x.sender.structs.size + 1) * (x.receiver.structs.size + 1) := by
  simp only [meetings, List.length_flatMap, List.length_map, List.length_cons, List.length_range,
    List.map_const', List.sum_replicate_nat]

theorem mem_meetings {sent received : Option StructId}
    (inside : ∀ t ∈ sent, t < x.sender.structs.size)
    (inside' : ∀ t ∈ received, t < x.receiver.structs.size) :
    ⟨x.direction, sent, received⟩ ∈ x.meetings := by
  have listed : ∀ {n : Nat} {t : Option StructId}, (∀ u ∈ t, u < n) →
      t ∈ none :: (List.range n).map some := by
    intro n t inside
    cases t with
    | none => exact List.mem_cons_self ..
    | some u =>
      exact List.mem_cons_of_mem _ (List.mem_map_of_mem (List.mem_range.mpr (inside u rfl)))
  exact List.mem_flatMap.mpr ⟨sent, listed inside, List.mem_map_of_mem (listed inside')⟩

theorem room_le (x : Transfer) (f : Findings) :
    x.room f ≤ (x.sender.structs.size + 1) * (x.receiver.structs.size + 1) := by
  rw [← x.meetings_length]
  exact List.countP_le_length

theorem room_mono (grows : f.met ⊆ g.met) : x.room g ≤ x.room f := by
  apply List.countP_mono_left
  intro m _ free
  simp only [Bool.not_eq_true', List.contains_eq_mem, decide_eq_false_iff_not] at free ⊢
  exact fun member => free (grows member)

theorem room_meet {m : Meeting} (possible : m ∈ x.meetings) (new : m ∉ f.met) :
    x.room (f.meet m) < x.room f := by
  have split : ∀ {ms : List Meeting}, m ∈ ms →
      ms.countP (fun n => !(f.meet m).met.contains n) < ms.countP fun n => !f.met.contains n := by
    intro ms member
    obtain ⟨before, after, rfl⟩ := List.append_of_mem member
    have fewer : ∀ ms : List Meeting, ms.countP (fun n => !(f.meet m).met.contains n) ≤
        ms.countP fun n => !f.met.contains n := by
      intro ms
      apply List.countP_mono_left
      intro n _ free
      simp only [Bool.not_eq_true', List.contains_eq_mem, decide_eq_false_iff_not] at free ⊢
      exact fun member => free (List.mem_cons_of_mem _ member)
    have first := fewer before
    have last := fewer after
    have gone : (!(f.meet m).met.contains m) = false := by simp [Findings.meet]
    have free : (!f.met.contains m) = true := by simpa using new
    simp only [List.countP_append, List.countP_cons, gone, free]
    simp only [Bool.false_eq_true, if_false, if_true]
    omega
  exact split possible

end Transfer

end ApiSchema
