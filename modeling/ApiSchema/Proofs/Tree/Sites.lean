import ApiSchema.Proofs.Tree.Boundaries
import Mathlib.Data.List.Forall2

/-! What annotations sit on. Of the tokens of a phrase, each annotation is followed by the first token of
the field or the value that it sits on, and what stands in the phrase is placed in the order of its tokens. -/

namespace ApiSchema

def Token.isNote (t : Token) : Bool :=
  match t.lexeme with
  | .note _ => true
  | _ => false

/-- The annotations among some tokens, each with the first token behind it that is none. -/
def annotated : List Token → List (Token × Option Token)
  | [] => []
  | t :: ts => if t.isNote then (t, ts.find? (!·.isNote)) :: annotated ts else annotated ts

/-- A part of a tree that annotations can sit on. -/
inductive Site where
  | type (d : TypeDeclaration)
  | error (e : ErrorDeclaration)
  | function (f : FunctionDeclaration)
  | field (f : FieldTree)
  | value (v : ValueTree)

namespace Site

def notes : Site → List Note
  | type d => d.notes
  | error e => e.notes
  | function f => f.notes
  | field f => f.notes
  | value (.mk _ _ notes _) => notes

def location : Site → Location
  | type d => d.location
  | error e => e.location
  | function f => f.location
  | field f => f.location
  | value (.mk _ _ _ location) => location

def bearings (s : Site) : List (Site × Note) := s.notes.map (s, ·)

end Site

mutual

/-- Each part of a type that annotations can sit on, in the order in which they are written. -/
def TypeTree.sites : TypeTree → List Site
  | .primitive .. | .reference .. => []
  | .optional base _ | .array base _ => base.sites
  | .struct _ members fields _ => MemberTree.allSites members ++ FieldTree.allSites fields
  | .enum _ values _ => ValueTree.allSites values

def FieldTree.sites : FieldTree → List Site
  | .mk name type secret notes location => .field (.mk name type secret notes location) :: type.sites

def MemberTree.sites : MemberTree → List Site
  | .field f => f.sites
  | .spread .. => []

def ValueTree.sites : ValueTree → List Site
  | .mk text data notes location => .value (.mk text data notes location) :: ValueTree.dataSites data

def ValueTree.dataSites : Option TypeTree → List Site
  | none => []
  | some data => data.sites

def FieldTree.allSites : List FieldTree → List Site
  | [] => []
  | f :: fs => f.sites ++ FieldTree.allSites fs

def MemberTree.allSites : List MemberTree → List Site
  | [] => []
  | m :: ms => m.sites ++ MemberTree.allSites ms

def ValueTree.allSites : List ValueTree → List Site
  | [] => []
  | v :: vs => v.sites ++ ValueTree.allSites vs

end

theorem FieldTree.sites_eq (f : FieldTree) : f.sites = .field f :: f.type.sites := by
  cases f
  rfl

namespace Grammar

section Tokens

variable {t : Token} {ts ts' : List Token}

theorem is_note_of_lexeme {text : String} (note : t.lexeme = .note text) : t.isNote = true := by
  rw [Token.isNote, note]

theorem not_note (other : ∀ text, t.lexeme ≠ .note text) : t.isNote = false := by
  unfold Token.isNote
  split
  · next text note => exact absurd note (other text)
  · rfl

theorem mark_not_note {m : Mark} (written : t.lexeme = .mark m) : t.isNote = false :=
  not_note fun text note => by cases written.symm.trans note

theorem keyword_not_note {k : Keyword} (written : t.lexeme = .keyword k) : t.isNote = false :=
  not_note fun text note => by cases written.symm.trans note

theorem name_not_note {name : String} (named : t.lexeme.name? = some name) : t.isNote = false :=
  not_note fun text note => by
    rw [note] at named
    cases named

theorem Labels.not_note {text : String} (labels : Labels t text) : t.isNote = false := by
  rcases labels with written | named
  · exact Grammar.not_note fun text note => by cases written.symm.trans note
  · exact name_not_note named

theorem annotated_other (other : t.isNote = false) : annotated (t :: ts) = annotated ts := by
  rw [annotated, if_neg (by rw [other]; decide)]

theorem annotated_note (note : t.isNote = true) :
    annotated (t :: ts) = (t, ts.find? (!·.isNote)) :: annotated ts := by
  rw [annotated, if_pos note]

theorem Finishes.tail (finishes : Finishes (t :: ts)) : Finishes ts := by
  intro last met
  apply finishes last
  cases ts with
  | nil => cases met
  | cons => exact met

theorem Finishes.next (finishes : Finishes (t :: ts)) (note : t.isNote = true) :
    ∃ next, ts.find? (!·.isNote) = some next := by
  obtain ⟨last, met⟩ := Option.ne_none_iff_exists'.mp
    (mt List.getLast?_eq_none_iff.mp (List.cons_ne_nil t ts))
  have other := not_note (finishes last met)
  refine Option.isSome_iff_exists.mp (List.find?_isSome.mpr ⟨last, ?_, by simpa using other⟩)
  rcases List.mem_cons.mp (List.mem_of_getLast? met) with rfl | behind
  · rw [note] at other
    cases other
  · exact behind

theorem annotated_append (finishes : Finishes ts) : annotated (ts ++ ts') = annotated ts ++ annotated ts' := by
  induction ts with
  | nil => rfl
  | cons t ts ih =>
    rw [List.cons_append]
    cases note : t.isNote with
    | false => rw [annotated_other note, annotated_other note, ih finishes.tail]
    | true =>
      obtain ⟨next, found⟩ := finishes.next note
      rw [annotated_note note, annotated_note note, ih finishes.tail, List.find?_append, found]
      rfl

theorem annotated_none (others : ∀ t ∈ ts, t.isNote = false) : annotated ts = [] := by
  induction ts with
  | nil => rfl
  | cons t ts ih =>
    obtain ⟨first, behind⟩ := List.forall_mem_cons.mp others
    rw [annotated_other first, ih behind]

theorem Maybe.annotated_none {m : Mark} (maybe : Maybe m ts) : annotated ts = [] := by
  cases maybe with
  | absent => rfl
  | present written => exact annotated_other (mark_not_note written)

theorem Marks.annotated_none {n : Nat} (marked : Marks n ts) : annotated ts = [] := by
  induction marked with
  | none => rfl
  | secret written named _ ih =>
    rw [annotated_other (mark_not_note written), annotated_other (name_not_note named), ih]

theorem Spreads.annotated_none {m : MemberTree} (spreads : Spreads m ts) : annotated ts = [] := by
  cases spreads with
  | named written named =>
    rw [annotated_other (mark_not_note written), annotated_other (name_not_note named)]
    rfl

theorem Notes.are_notes {noted : List Token} {notes : List Note} (annotated : Notes noted notes) :
    ∀ t ∈ noted, t.isNote = true := by
  induction annotated with
  | nil => exact nofun
  | cons own _ ih =>
    obtain ⟨text, _, lexeme, _⟩ := own
    exact List.forall_mem_cons.mpr ⟨is_note_of_lexeme lexeme, ih⟩

theorem annotated_noted {noted : List Token} (all : ∀ t ∈ noted, t.isNote = true) (other : t.isNote = false) :
    annotated (noted ++ t :: ts) = noted.map (·, some t) ++ annotated ts := by
  induction noted with
  | nil => exact annotated_other other
  | cons first noted ih =>
    obtain ⟨note, others⟩ := List.forall_mem_cons.mp all
    have next : (noted ++ t :: ts).find? (!·.isNote) = some t := by
      rw [List.find?_append, List.find?_eq_none.mpr (by simpa using others), List.find?_cons, other]
      rfl
    rw [List.cons_append, annotated_note note, ih others, next]
    rfl

end Tokens

/-- How an annotation sits in a tree of these functions, by the first token behind it. One about an
argument of a function describes that argument. -/
inductive Lands (fs : List FunctionDeclaration) : Token × Option Token → Site × Note → Prop where
  | own {token next site note} (written : IsNote token note) (first : site.location = next.location)
    (other : ∀ f, site = .function f → isAboutArgument note = false) :
    Lands fs (token, some next) (site, note)
  | argument {token next f g text} (listed : f ∈ fs) (first : f.location = next.location)
    (among : .field g ∈ f.members) (written : IsNote token ⟨.argument g.name text, token.location⟩) :
    Lands fs (token, some next) (.field g, .describe text token.location)

def Phrase.sites : Phrase → List Site
  | .type t | .struct t => t.sites
  | .members ms | .arguments ms => MemberTree.allSites ms
  | .field f => f.sites
  | .values vs => ValueTree.allSites vs
  | .argument m => m.sites

/-- The annotations among the tokens of a phrase. Those of a field stand in front of it. -/
def Phrase.bearings : Phrase → List (Site × Note)
  | .field f => f.type.sites.flatMap Site.bearings
  | phrase => phrase.sites.flatMap Site.bearings

section Phrases

variable {marks : Nat → Prop} {fs : List FunctionDeclaration} {ts noted : List Token} {notes : List Note}

theorem Notes.lands {word : Token} {rest : List Token} {site : Site} {parts : List (Site × Note)}
    (written : Notes noted site.notes) (other : word.isNote = false) (first : site.location = word.location)
    (plain : ∀ f, site ≠ .function f) (behind : List.Forall₂ (Lands fs) (annotated rest) parts) :
    List.Forall₂ (Lands fs) (annotated (noted ++ word :: rest)) (site.bearings ++ parts) := by
  have each : ∀ {noted notes}, Notes noted notes →
      List.Forall₂ (Lands fs) (noted.map (·, some word)) (notes.map (site, ·)) := by
    intro noted notes written
    induction written with
    | nil => exact .nil
    | cons own _ ih => exact .cons (.own own first fun f same => absurd same (plain f)) ih
  rw [annotated_noted written.are_notes other]
  exact List.rel_append (each written) behind

theorem Derives.begins {f : FieldTree} (field : Derives marks (.field f) ts) :
    ∃ word rest, ts = word :: rest ∧ word.isNote = false ∧ f.location = word.location := by
  cases field with
  | field named => exact ⟨_, _, rfl, name_not_note named, rfl⟩

theorem Derives.lands {phrase : Phrase} (derived : Derives marks phrase ts) :
    List.Forall₂ (Lands fs) (annotated ts) phrase.bearings := by
  induction derived with
  | primitive written =>
    rw [annotated_other (not_note fun text note => by cases written.symm.trans note)]
    exact .nil
  | reference written =>
    rw [annotated_other (not_note fun text note => by cases written.symm.trans note)]
    exact .nil
  | literal _ ih => exact ih
  | enum keyword opens _ ih =>
    rw [annotated_other (keyword_not_note keyword), annotated_other (mark_not_note opens)]
    exact ih
  | parens opens inner closes ih =>
    rw [annotated_other (mark_not_note opens), annotated_append inner.finishes,
      annotated_other (mark_not_note closes), annotated, List.append_nil]
    exact ih
  | optional inner written ih =>
    rw [annotated_append inner.finishes, annotated_other (mark_not_note written), annotated,
      List.append_nil]
    exact ih
  | array inner written ih =>
    rw [annotated_append inner.finishes, annotated_other (mark_not_note written), annotated,
      List.append_nil]
    exact ih
  | @struct brace ms ts opens _ _ ih =>
    have parts : (Phrase.struct (.struct "" ms [] brace.location)).bearings =
        (Phrase.members ms).bearings := by
      simp [Phrase.bearings, Phrase.sites, TypeTree.sites, FieldTree.allSites]
    rw [parts, annotated_other (mark_not_note opens)]
    exact ih
  | closed closes =>
    rw [annotated_other (mark_not_note closes)]
    exact .nil
  | spread spread separated _ ih =>
    rw [annotated_append spread.finishes, spread.annotated_none, annotated_append separated.finishes,
      separated.annotated_none]
    cases spread
    exact ih
  | @member f ms noted written sep ts annotated field separated others first behind =>
    obtain ⟨word, rest, rfl, other, location⟩ := field.begins
    have further : ApiSchema.annotated (rest ++ (sep ++ ts)) =
        ApiSchema.annotated (word :: rest) ++ ApiSchema.annotated ts := by
      rw [← annotated_other other, ← List.cons_append, annotated_append field.finishes,
        annotated_append separated.finishes, separated.annotated_none, List.nil_append]
    have parts : (Phrase.members (.field f :: ms)).bearings =
        (Site.field f).bearings ++ ((Phrase.field f).bearings ++ (Phrase.members ms).bearings) := by
      simp [Phrase.bearings, Phrase.sites, MemberTree.allSites, MemberTree.sites, f.sites_eq]
    rw [parts, List.cons_append]
    refine Notes.lands annotated other location nofun ?_
    rw [further]
    exact List.rel_append first behind
  | field named separated inner secret _ ih =>
    rw [annotated_other (name_not_note named), annotated_other (mark_not_note separated),
      annotated_append inner.finishes, secret.annotated_none, List.append_nil]
    exact ih
  | complete closes =>
    rw [annotated_other (mark_not_note closes)]
    exact .nil
  | @tag word text vs noted notes sep ts annotated labels separated _ ih =>
    change List.Forall₂ (Lands fs) _
      ((Site.value (.mk text Option.none notes word.location)).bearings ++ (Phrase.values vs).bearings)
    refine Notes.lands annotated labels.not_note rfl nofun ?_
    rw [annotated_append separated.finishes, separated.annotated_none]
    exact ih
  | @tagged word text t vs noted notes written sep ts annotated labels data separated _ within behind =>
    have parts : (Phrase.values (.mk text (some t) notes word.location :: vs)).bearings =
        (Site.value (.mk text (some t) notes word.location)).bearings ++
          ((Phrase.struct t).bearings ++ (Phrase.values vs).bearings) := by
      simp [Phrase.bearings, Phrase.sites, ValueTree.allSites, ValueTree.sites, ValueTree.dataSites]
    rw [parts]
    refine Notes.lands annotated labels.not_note rfl nofun ?_
    rw [annotated_append data.finishes, annotated_append separated.finishes, separated.annotated_none,
      List.nil_append]
    exact List.rel_append within behind
  | inherited spread =>
    rw [spread.annotated_none]
    cases spread
    exact .nil
  | @own f ts field bare ih =>
    have parts : (Phrase.argument (.field f)).bearings = (Phrase.field f).bearings := by
      simp [Phrase.bearings, Phrase.sites, MemberTree.sites, f.sites_eq, Site.bearings, Site.notes, bare]
    rw [parts]
    exact ih
  | none => exact .nil
  | @last m ts _ ih =>
    have parts : (Phrase.arguments [m]).bearings = (Phrase.argument m).bearings := by
      simp [Phrase.bearings, Phrase.sites, MemberTree.allSites]
    rw [parts]
    exact ih
  | @more m ms written comma ts argument separated _ first behind =>
    have parts : (Phrase.arguments (m :: ms)).bearings =
        (Phrase.argument m).bearings ++ (Phrase.arguments ms).bearings := by
      simp [Phrase.bearings, Phrase.sites, MemberTree.allSites]
    rw [parts, annotated_append argument.finishes, annotated_other (mark_not_note separated)]
    exact List.rel_append first behind

end Phrases

section Places

def Placed (sites : List Site) (ts : List Token) : Prop :=
  (sites.map Site.location).Sublist (ts.map (·.location))

variable {marks : Nat → Prop} {sites sites' : List Site} {site : Site} {t : Token} {ts ts' : List Token}

theorem Placed.none (ts : List Token) : Placed [] ts := List.nil_sublist _

theorem Placed.append (first : Placed sites ts) (behind : Placed sites' ts') :
    Placed (sites ++ sites') (ts ++ ts') := by
  unfold Placed at *
  rw [List.map_append, List.map_append]
  exact List.Sublist.append first behind

theorem Placed.front (placed : Placed sites ts) (ts' : List Token) : Placed sites (ts ++ ts') := by
  have both := placed.append (Placed.none ts')
  rwa [List.append_nil] at both

theorem Placed.behind (placed : Placed sites ts') (ts : List Token) : Placed sites (ts ++ ts') :=
  (Placed.none ts).append placed

theorem Placed.cons (placed : Placed sites ts) (t : Token) : Placed sites (t :: ts) := placed.behind [t]

theorem Placed.here (first : site.location = t.location) (placed : Placed sites ts) :
    Placed (site :: sites) (t :: ts) := by
  have here : Placed [site] [t] := by
    unfold Placed
    rw [List.map_singleton, first]
    exact List.Sublist.refl _
  exact here.append placed

theorem Derives.placed {phrase : Phrase} (derived : Derives marks phrase ts) : Placed phrase.sites ts := by
  induction derived with
  | primitive | reference | closed | complete | none => exact .none _
  | literal _ ih => exact ih
  | enum _ _ _ ih => exact (ih.cons _).cons _
  | parens _ _ _ ih => exact (ih.front _).cons _
  | optional _ _ ih | array _ _ ih => exact ih.front _
  | @struct _ ms _ _ _ _ ih =>
    have only : (Phrase.struct (.struct "" ms [] default)).sites = MemberTree.allSites ms :=
      List.append_nil _
    exact only ▸ ih.cons _
  | @spread m ms written sep ts spread _ _ ih =>
    cases spread
    exact (ih.behind sep).behind _
  | @member f ms noted written sep ts _ _ _ _ first others =>
    exact (first.append (others.behind sep)).behind noted
  | field _ _ _ _ _ ih => exact .here rfl ((ih.front _).cons _)
  | @tag word text vs noted notes sep ts _ _ _ _ ih =>
    exact (Placed.here rfl (ih.behind sep)).behind noted
  | @tagged word text t vs noted notes written sep ts _ _ _ _ _ within others =>
    exact (Placed.here rfl (within.append (others.behind sep))).behind noted
  | inherited spread =>
    cases spread
    exact .none _
  | own _ _ ih => exact ih
  | @last m ts _ ih =>
    have only : (Phrase.arguments [m]).sites = m.sites := List.append_nil _
    exact only ▸ ih
  | more _ _ _ first others => exact first.append (others.cons _)

end Places

end Grammar

end ApiSchema
