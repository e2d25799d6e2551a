import ApiSchema.Tree.Parser
import ApiSchema.Proofs.Running

/-! What parsers take from the tokens ahead of them. Apart from imports they take tokens from the front
and leave the others as they are. They fail for the grammar, or for a fault of what is ahead. -/

namespace ApiSchema

namespace ParseState

def ahead (s : ParseState) : TokenStream := s.current.toList.map .ok ++ s.rest

/-- Where no token has been read ahead, none is left. -/
def Settled (s : ParseState) : Prop := s.current = none → s.rest = []

end ParseState

namespace Parser

variable {α β : Type}

/-- Why a parser may fail that has these tokens ahead. -/
inductive Blames (tokens : TokenStream) : ParseFailure → Prop where
  | lexer {e} (met : .error e ∈ tokens) : Blames tokens (.lexer e)
  | grammar (e : ParseError) : Blames tokens (.grammar e)
  | number {text location} (met : .ok ⟨.note text, location⟩ ∈ tokens)
    (long : annotationOf text = .ok none) : Blames tokens .numberTooLong

theorem Blames.mono {tokens tokens' : TokenStream} {e : ParseFailure} (blames : Blames tokens e)
    (within : tokens ⊆ tokens') : Blames tokens' e := by
  cases blames with
  | lexer met => exact .lexer (within met)
  | grammar e => exact .grammar e
  | number met long => exact .number (within met) long

/-- Between two states some tokens were taken, and at least so many. -/
structure Drawn (least : Nat) (s s' : ParseState) : Prop where
  imported : s'.imported = s.imported
  settled : s'.Settled
  taken : ∃ taken : List Token, least ≤ taken.length ∧ s.ahead = taken.map .ok ++ s'.ahead

namespace Drawn

variable {m n : Nat} {s s' s'' : ParseState}

theorem refl (settled : s.Settled) : Drawn 0 s s := ⟨rfl, settled, [], Nat.le_refl _, rfl⟩

theorem trans (first : Drawn m s s') (second : Drawn n s' s'') : Drawn (n + m) s s'' := by
  obtain ⟨imported, _, taken, enough, ahead⟩ := first
  obtain ⟨imported', settled, taken', enough', ahead'⟩ := second
  refine ⟨imported'.trans imported, settled, taken ++ taken', ?_, ?_⟩
  · rw [List.length_append]
    omega
  · rw [ahead, ahead', List.map_append, List.append_assoc]

theorem weaken (drawn : Drawn m s s') (fewer : n ≤ m) : Drawn n s s' := by
  obtain ⟨imported, settled, taken, enough, ahead⟩ := drawn
  exact ⟨imported, settled, taken, Nat.le_trans fewer enough, ahead⟩

theorem subset (drawn : Drawn m s s') : s'.ahead ⊆ s.ahead := by
  obtain ⟨_, _, taken, _, ahead⟩ := drawn
  rw [ahead]
  exact List.subset_append_right _ _

theorem length_le (drawn : Drawn m s s') : m + s'.ahead.length ≤ s.ahead.length := by
  obtain ⟨_, _, taken, enough, ahead⟩ := drawn
  rw [ahead, List.length_append, List.length_map]
  omega

theorem error_mem (drawn : Drawn m s s') {e : LexerError} (met : .error e ∈ s.ahead) :
    .error e ∈ s'.ahead := by
  obtain ⟨_, _, taken, _, ahead⟩ := drawn
  rw [ahead] at met
  rcases List.mem_append.mp met with before | behind
  · obtain ⟨_, _, same⟩ := List.mem_map.mp before
    cases same
  · exact behind

end Drawn

def Draws (least : Nat) (p : Parser α) : Prop :=
  ∀ s : ParseState, s.Settled → Within p s (Blames s.ahead) fun _ s' => Drawn least s s'

/-- The parser only takes tokens. -/
class Sequential (p : Parser α) : Prop where
  draws : Draws 0 p

namespace Draws

variable {m n : Nat} {p : Parser α}

theorem bind {next : α → Parser β} (first : Draws m p) (later : ∀ a, Draws n (next a)) :
    Draws (n + m) (p >>= next) := by
  intro s settled
  apply Within.bind
  apply (first s settled).mono
  intro a s' drawn
  have further := (later a s' drawn.settled).weaken fun e blames => blames.mono drawn.subset
  exact further.mono fun b s'' drawn' => drawn.trans drawn'

theorem after [Sequential p] {next : α → Parser β} (later : ∀ a, Draws n (next a)) :
    Draws n (p >>= next) := Sequential.draws.bind later

theorem weaken (draws : Draws m p) (fewer : n ≤ m) : Draws n p :=
  fun s settled => (draws s settled).mono fun _ _ drawn => drawn.weaken fewer

theorem sequential (draws : Draws m p) : Sequential p := ⟨draws.weaken (Nat.zero_le _)⟩

theorem pure {a : α} : Draws 0 (Pure.pure a) := fun _ settled => Within.pure (.refl settled)

theorem fail {fault : ParseFault} {location : Location} : Draws n (fail fault location : Parser α) :=
  fun _ _ => Within.throw (.grammar _)

theorem modify {f : ParseState → ParseState} (current : ∀ s, (f s).current = s.current)
    (rest : ∀ s, (f s).rest = s.rest) (imported : ∀ s, (f s).imported = s.imported) :
    Draws 0 (modify f) := by
  refine fun s settled => Within.modify ⟨imported s, ?_, [], Nat.le_refl _, ?_⟩
  · unfold ParseState.Settled
    rw [current, rest]
    exact settled
  · unfold ParseState.ahead
    rw [current, rest]
    rfl

end Draws

section Steps

instance : Sequential (get : Parser ParseState) := ⟨fun _ settled => Within.get (.refl settled)⟩

instance {a : α} : Sequential (pure a : Parser α) := ⟨.pure⟩

instance {fault : ParseFault} {location : Location} : Sequential (fail fault location : Parser α) :=
  ⟨.fail⟩

theorem read_ahead_within (s : ParseState) :
    Within readAhead s (Blames s.rest) fun _ s' => s'.ahead = s.rest ∧ s'.Settled ∧
      s'.imported = s.imported ∧ s'.pending = s.pending ∧ s'.warnings = s.warnings := by
  apply Within.bind
  apply Within.get
  cases rest : s.rest with
  | nil => exact Within.set ⟨rfl, fun _ => rfl, rfl, rfl, rfl⟩
  | cons first behind =>
    cases first with
    | ok token => exact Within.set ⟨rfl, nofun, rfl, rfl, rfl⟩
    | error e => exact Within.throw (.lexer (List.mem_cons_self ..))

instance : Sequential readAhead := by
  refine ⟨fun s settled => ?_⟩
  have read := (read_ahead_within s).weaken fun e blames =>
    blames.mono (List.subset_append_right (s.current.toList.map .ok) s.rest)
  refine read.mono fun _ s' ⟨ahead, settled', imported, _⟩ => ?_
  exact ⟨imported, settled', s.current.toList, Nat.zero_le _, by rw [ahead]; rfl⟩

theorem current_within (s : ParseState) :
    Within current s (Blames s.ahead) fun token s' => s.current = some token ∧ s' = s := by
  apply Within.bind
  apply Within.get
  cases now : s.current with
  | some token => exact Within.pure ⟨rfl, rfl⟩
  | none => exact Within.throw (.grammar _)

instance : Sequential current := by
  refine ⟨fun s settled => (current_within s).mono ?_⟩
  rintro _ _ ⟨_, rfl⟩
  exact .refl settled

theorem advance_within (s : ParseState) :
    Within advance s (Blames s.ahead) fun token s' => s.ahead = .ok token :: s'.ahead ∧
      s'.Settled ∧ s'.imported = s.imported ∧ s'.pending = s.pending ∧ s'.warnings = s.warnings := by
  apply Within.bind
  apply (current_within s).mono
  rintro token s ⟨now, rfl⟩
  apply Within.bind
  apply Within.modify
  apply Within.bind
  have behind : s.rest ⊆ s.ahead := List.subset_append_right ..
  have read := read_ahead_within { s with last := token.location }
  refine (read.weaken fun e blames => blames.mono behind).mono ?_
  rintro _ s' ⟨ahead, kept⟩
  refine Within.pure ⟨?_, kept⟩
  rw [ahead, ParseState.ahead, now]
  rfl

theorem advance_draws : Draws 1 advance := by
  intro s _
  refine (advance_within s).mono ?_
  rintro token s' ⟨ahead, settled, imported, _⟩
  exact ⟨imported, settled, [token], Nat.le_refl _, ahead⟩

instance : Sequential advance := advance_draws.sequential

instance {lexeme : Lexeme} : Sequential (sees lexeme) := ⟨.after fun _ => .pure⟩

instance {m : Mark} : Sequential (seesMark m) := inferInstanceAs (Sequential (sees _))

instance {m : Mark} : Sequential (expectMark m) := by
  refine ⟨.after fun token => ?_⟩
  split
  · exact Sequential.draws
  · exact .fail

instance {m : Mark} : Sequential (acceptMark m) := by
  refine ⟨.after fun seen => ?_⟩
  split
  · exact .after fun _ => .pure
  · exact .pure

theorem expect_name_draws : Draws 1 expectName := by
  apply Draws.after
  intro token
  split
  · exact advance_draws.bind fun _ => .pure
  · exact .fail

instance : Sequential expectName := expect_name_draws.sequential

theorem note_of_within {text : String} {location : Location} {s : ParseState} {tokens : TokenStream}
    (met : .ok ⟨.note text, location⟩ ∈ tokens) :
    Within (noteOf text location) s (Blames tokens) fun _ s' => s' = s := by
  unfold noteOf
  split
  · exact Within.pure rfl
  · next long => exact Within.throw (.number met long)
  · exact Within.throw (.grammar _)

theorem accept_annotations_draws (fuel : Nat) : Draws 0 (acceptAnnotations fuel) := by
  induction fuel with
  | zero => exact .pure
  | succ fuel ih =>
    intro s settled
    apply Within.bind
    apply Within.get
    split
    · next text location now =>
      have met : .ok ⟨.note text, location⟩ ∈ s.ahead := by simp [ParseState.ahead, now]
      apply Within.bind
      apply (advance_draws s settled).mono
      intro _ s₁ drawn
      apply Within.bind
      apply (note_of_within met).mono
      rintro note s₁ rfl
      have waiting : Draws 0 (modify fun s => { s with pending := s.pending ++ [note] } : Parser PUnit) :=
        .modify (fun _ => rfl) (fun _ => rfl) fun _ => rfl
      have further := (waiting.bind fun _ => ih) s₁ drawn.settled
      refine (further.weaken fun e blames => blames.mono drawn.subset).mono fun _ s₂ drawn' => ?_
      exact (drawn.trans drawn').weaken (Nat.zero_le _)
    · exact Within.pure (.refl settled)

instance {fuel : Nat} : Sequential (acceptAnnotations fuel) := ⟨accept_annotations_draws fuel⟩

instance : Sequential collectAnnotations := ⟨.after fun _ => Sequential.draws⟩

instance : Sequential takeAnnotations :=
  ⟨fun _ settled => Within.bind (Within.get (Within.bind (Within.set (Within.pure
    ⟨rfl, settled, [], Nat.le_refl _, rfl⟩))))⟩

instance : Sequential checkNoAnnotations := by
  refine ⟨.after fun s => ?_⟩
  split
  · exact .pure
  · exact .fail

instance {name : String} {location : Location} : Sequential (requireTypeName name location) := by
  constructor
  unfold requireTypeName
  split
  · exact .pure
  · exact .fail

instance : Sequential parseSpread :=
  ⟨.after fun _ => .after fun _ => .after fun _ => .after fun _ => .pure⟩

instance {fuel : Nat} {type : TypeTree} : Sequential (parseSuffixes fuel type) := by
  constructor
  induction fuel generalizing type with
  | zero => exact .pure
  | succ fuel ih =>
    apply Draws.after
    intro s
    split
    · exact .after fun _ => ih
    · exact .after fun _ => ih
    · exact .pure

instance {fuel : Nat} {secret : Bool} : Sequential (parseFieldMarks fuel secret) := by
  constructor
  induction fuel generalizing secret with
  | zero => exact .pure
  | succ fuel ih =>
    apply Draws.after
    intro marked
    split
    · apply Draws.after
      rintro ⟨name, location⟩
      dsimp only
      split
      · exact ih
      · exact .fail
    · exact .pure

instance : Sequential remainingFuel := ⟨.after fun _ => .pure⟩

instance {notes : List Note} {members : List MemberTree} :
    Sequential (distributeNotes notes members) := by
  constructor
  induction notes generalizing members with
  | nil => exact .pure
  | cons note rest ih =>
    unfold distributeNotes
    split
    · split
      · exact ih
      · exact .fail
    · exact Draws.bind ih fun _ => .pure

end Steps

structure AllSequential (fuel : Nat) : Prop where
  type : Sequential (parseType fuel)
  struct : Sequential (parseStruct fuel)
  members : ∀ seen, Sequential (parseMembers fuel seen)
  field : Sequential (parseField fuel)
  values : Sequential (parseValues fuel)
  arguments : ∀ seen, Sequential (parseArguments fuel seen)

section Types

variable {fuel : Nat}

theorem parse_type_draws (all : AllSequential fuel) : Draws 0 (parseType (fuel + 1)) := by
  have type := all.type
  have struct := all.struct
  have values := all.values
  unfold parseType
  apply Draws.after
  intro _
  apply Draws.after
  intro token
  extract_lets suffixed
  have ends : ∀ base, Draws 0 (suffixed base) := fun base => Sequential.draws
  split
  · exact .after ends
  · exact .after fun _ => .after fun _ => .after fun _ => ends _
  · exact .after fun _ => ends _
  · exact .after fun _ => .after fun _ => .after fun _ => ends _
  · split
    · exact .after ends
    · exact .after fun _ => .after fun _ => ends _

theorem parse_members_draws (all : AllSequential fuel) (seen : List String) :
    Draws 0 (parseMembers (fuel + 1) seen) := by
  have members := all.members
  have field := all.field
  unfold parseMembers
  apply Draws.after
  intro _
  apply Draws.after
  intro closes
  split
  · exact .after fun _ => .after fun _ => .pure
  · apply Draws.after
    intro spreads
    split
    · exact .after fun _ => .after fun _ => .after fun _ => .pure
    · apply Draws.after
      intro field
      extract_lets continued
      have ends : ∀ u, Draws 0 (continued u) := fun _ => .after fun _ => .after fun _ => .pure
      split
      · exact .after ends
      · exact ends ()

theorem parse_values_draws (all : AllSequential fuel) : Draws 0 (parseValues (fuel + 1)) := by
  have struct := all.struct
  have values := all.values
  unfold parseValues
  apply Draws.after
  intro _
  apply Draws.after
  intro closes
  split
  · exact .after fun _ => .after fun _ => .pure
  · apply Draws.after
    intro s
    extract_lets continued
    have ends : ∀ written, Draws 0 (continued written) := by
      rintro ⟨text, location⟩
      apply Draws.after
      intro notes
      apply Draws.after
      intro opens
      extract_lets closed
      have last : ∀ data, Draws 0 (closed data) := fun _ => .after fun _ => .after fun _ => .pure
      split
      · exact Draws.bind (.after fun _ => .pure) last
      · exact .after last
    split
    · exact .after fun _ => .after ends
    · exact .after ends

theorem parse_arguments_draws (all : AllSequential fuel) (seen : List String) :
    Draws 0 (parseArguments (fuel + 1) seen) := by
  have arguments := all.arguments
  have field := all.field
  unfold parseArguments
  apply Draws.after
  intro closes
  split
  · exact .pure
  · apply Draws.after
    intro spreads
    split
    · apply Draws.after
      intro member
      apply Draws.after
      intro more
      split
      · exact .after fun _ => .pure
      · exact .pure
    · apply Draws.after
      intro field
      extract_lets continued
      have ends : ∀ u, Draws 0 (continued u) := by
        intro u
        apply Draws.after
        intro more
        split
        · exact .after fun _ => .pure
        · exact .pure
      split
      · exact .after ends
      · exact ends ()

theorem all_sequential (fuel : Nat) : AllSequential fuel := by
  induction fuel with
  | zero =>
    constructor
    · exact ⟨.after fun _ => .fail⟩
    · exact ⟨.after fun _ => .fail⟩
    · exact fun _ => ⟨.after fun _ => .fail⟩
    · exact ⟨.after fun _ => .fail⟩
    · exact ⟨.after fun _ => .fail⟩
    · exact fun _ => ⟨.after fun _ => .fail⟩
  | succ fuel ih =>
    have type := ih.type
    have members := ih.members
    have struct : Draws 0 (parseStruct (fuel + 1)) := by
      unfold parseStruct
      exact .after fun _ => .after fun _ => .pure
    have field : Draws 0 (parseField (fuel + 1)) := by
      unfold parseField
      exact .after fun _ => .after fun _ => .after fun _ => .after fun _ => .after fun _ => .pure
    exact ⟨⟨parse_type_draws ih⟩, ⟨struct⟩, fun seen => ⟨parse_members_draws ih seen⟩, ⟨field⟩,
      ⟨parse_values_draws ih⟩, fun seen => ⟨parse_arguments_draws ih seen⟩⟩

end Types

section Declarations

instance : Sequential parseTypeHere := ⟨.after fun fuel => (all_sequential fuel).type.draws⟩

theorem parse_type_declaration_draws : Draws 2 parseTypeDeclaration := by
  apply advance_draws.bind
  intro word
  apply expect_name_draws.bind
  rintro ⟨name, location⟩
  dsimp -zeta only
  extract_lets named
  have ends : ∀ u, Draws 0 (named u) := fun _ => .after fun _ => .after fun _ => .after fun _ => .pure
  split
  · exact ends ()
  · exact .after ends

theorem parse_error_declaration_draws : Draws 2 parseErrorDeclaration := by
  apply advance_draws.bind
  intro word
  apply expect_name_draws.bind
  rintro ⟨name, location⟩
  dsimp -zeta only
  extract_lets named
  have ends : ∀ u, Draws 0 (named u) := by
    intro u
    apply Draws.after
    intro notes
    apply Draws.after
    intro colon
    apply Draws.after
    intro s
    split
    · exact .after fun _ => .pure
    · split
      · exact .after fun _ => .pure
      · exact .after fun _ => .pure
  split
  · exact ends ()
  · exact .after ends

theorem parse_function_declaration_draws : Draws 2 parseFunctionDeclaration := by
  apply Draws.after
  intro notes
  apply advance_draws.bind
  intro word
  dsimp -zeta only
  extract_lets warned
  have ends : ∀ u, Draws 1 (warned u) := by
    intro u
    apply expect_name_draws.bind
    rintro ⟨name, location⟩
    apply Draws.after
    intro _
    apply Draws.after
    intro fuel
    have arguments := (all_sequential fuel).arguments
    apply Draws.after
    intro members
    apply Draws.after
    intro closing
    apply Draws.after
    intro distributed
    apply Draws.after
    intro colon
    split
    · exact .after fun _ => .pure
    · exact .after fun _ => .pure
  have warns : ∀ f : ParseState → List String,
      Draws 0 (modify fun s => { s with warnings := f s } : Parser PUnit) := fun f =>
    .modify (fun _ => rfl) (fun _ => rfl) fun _ => rfl
  split
  · exact (warns _).bind ends
  · exact ends ()

end Declarations

end Parser

end ApiSchema
