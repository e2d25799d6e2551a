import ApiSchema.Proofs.Token.Names
import ApiSchema.Proofs.Tree.Pieces

/-! Imports splice files. Each file is opened at most once, and all its tokens are taken in their order.
As long as no piece is made of tokens of two files, what is taken is the source with the tokens of a
file in the place of its first import, and nothing in the place of others. -/

namespace ApiSchema.Grammar

variable {files : FileTree} {imported : List FilePath} {stream : List Sourced} {ps : List Piece}
  {origin : Option FilePath} {f : FilePath}

section Origins

def readFor (origin : Option FilePath) (xs : List Sourced) : List Sourced :=
  xs.filter (·.origin == origin)

theorem read_for_append (xs ys : List Sourced) :
    readFor origin (xs ++ ys) = readFor origin xs ++ readFor origin ys := List.filter_append ..

theorem read_for_own (origin : Option FilePath) (ts : List Token) :
    readFor origin (tokensOf origin ts) = tokensOf origin ts :=
  List.filter_eq_self.mpr fun x member => by simp [origin_of_mem member]

theorem read_for_absent {xs : List Sourced} (absent : ∀ x ∈ xs, x.origin ≠ origin) :
    readFor origin xs = [] :=
  List.filter_eq_nil_iff.mpr fun x member => by simpa using absent x member

/-- The files of the tokens ahead have been imported. -/
def Tagged (imported : List FilePath) (stream : List Sourced) : Prop :=
  ∀ x ∈ stream, ∀ f, x.origin = some f → f ∈ imported

theorem Tagged.append {xs ys : List Sourced} (first : Tagged imported xs) (second : Tagged imported ys) :
    Tagged imported (xs ++ ys) := by
  intro x member
  rcases List.mem_append.mp member with before | behind
  · exact first x before
  · exact second x behind

theorem Tagged.left {xs ys : List Sourced} (tagged : Tagged imported (xs ++ ys)) : Tagged imported xs :=
  fun x member => tagged x (List.mem_append_left _ member)

theorem Tagged.right {xs ys : List Sourced} (tagged : Tagged imported (xs ++ ys)) : Tagged imported ys :=
  fun x member => tagged x (List.mem_append_right _ member)

theorem Tagged.directive {word path : Sourced} {rest : List Sourced}
    (tagged : Tagged imported (word :: path :: rest)) :
    Tagged imported [word, path] ∧ Tagged imported rest :=
  have split : Tagged imported ([word, path] ++ rest) := tagged
  ⟨split.left, split.right⟩

theorem Tagged.opened {rest : List Sourced} (tagged : Tagged imported rest) (content : List Token) :
    Tagged (f :: imported) (tokensOf (some f) content ++ rest) := by
  refine Tagged.append (fun x member g same => ?_) fun x member g same => ?_
  · cases (origin_of_mem member).symm.trans same
    exact List.mem_cons_self ..
  · exact List.mem_cons_of_mem _ (tagged x member g same)

theorem Tagged.other (tagged : Tagged imported stream) (new : f ∉ imported) :
    ∀ x ∈ stream, x.origin ≠ some f := fun x member same => new (tagged x member f same)

theorem tagged_source (imported : List FilePath) (ts : List Token) :
    Tagged imported (tokensOf none ts) := by
  intro x member f same
  cases (origin_of_mem member).symm.trans same

end Origins

section Conservation

theorem consumed_cons (p : Piece) (ps : List Piece) : consumed (p :: ps) = p.taken ++ consumed ps := rfl

/-- Of what is read for no import that is still to come, nothing is lost and nothing added. -/
theorem InPieces.own (pieces : InPieces files imported stream ps)
    (known : ∀ f, origin = some f → f ∈ imported) :
    readFor origin (consumed ps) = readFor origin stream := by
  induction pieces with
  | done => rfl
  | @declaration imported d written rest ps _ _ ih =>
    rw [consumed_cons, read_for_append, read_for_append, ih known]
    rfl
  | @opening imported target content rest ps word path _ new _ _ ih =>
    have other : readFor origin (tokensOf (some target) content) = [] := by
      refine read_for_absent fun x member same => new (known target ?_)
      exact same.symm.trans (origin_of_mem member)
    have front : word :: path :: rest = [word, path] ++ rest := rfl
    rw [consumed_cons, front, read_for_append, read_for_append,
      ih fun f same => List.mem_cons_of_mem _ (known f same), read_for_append, other, List.nil_append]
    rfl
  | @repetition imported target rest ps word path _ _ _ ih =>
    have front : word :: path :: rest = [word, path] ++ rest := rfl
    rw [consumed_cons, front, read_for_append, read_for_append, ih known]
    rfl

theorem InPieces.new (pieces : InPieces files imported stream ps) :
    ((openedBy ps).map (·.1)).Nodup ∧
      ∀ e ∈ openedBy ps, e.1 ∉ imported ∧ Holds files e.1 e.2 := by
  induction pieces with
  | done => exact ⟨List.nodup_nil, fun _ => nofun⟩
  | declaration _ _ ih => exact ih
  | @opening imported target content rest ps word path _ new holds _ ih =>
    obtain ⟨once, others⟩ := ih
    have split : openedBy (.opening target content word path :: ps) = (target, content) :: openedBy ps :=
      rfl
    rw [split]
    refine ⟨List.nodup_cons.mpr ⟨fun again => ?_, once⟩, fun e member => ?_⟩
    · obtain ⟨e, member, same⟩ := List.mem_map.mp again
      exact (others e member).1 (same ▸ List.mem_cons_self ..)
    · rcases List.mem_cons.mp member with rfl | later
      · exact ⟨new, holds⟩
      · exact ⟨fun known => (others e later).1 (List.mem_cons_of_mem _ known), (others e later).2⟩
  | repetition _ _ _ ih => exact ih

theorem InPieces.opened (pieces : InPieces files imported stream ps) (tagged : Tagged imported stream)
    {content : List Token} (opened : (f, content) ∈ openedBy ps) :
    readFor (some f) (consumed ps) = tokensOf (some f) content := by
  have absent : ∀ {imported xs}, Tagged imported xs → f ∉ imported → readFor (some f) xs = [] :=
    fun tagged new => read_for_absent (tagged.other new)
  induction pieces with
  | done => cases opened
  | @declaration imported d written rest ps _ others ih =>
    have new := (others.new.2 _ opened).1
    rw [consumed_cons, read_for_append, ih tagged.right opened]
    exact congrArg (· ++ _) (absent tagged.left new)
  | @opening imported target held rest ps word path _ new _ others ih =>
    obtain ⟨before, behind⟩ := tagged.directive
    rw [consumed_cons, read_for_append]
    rcases List.mem_cons.mp opened with first | later
    · cases first
      rw [others.own fun g same => Option.some.inj same ▸ List.mem_cons_self .., read_for_append,
        read_for_own, absent behind new, List.append_nil]
      exact congrArg (· ++ _) (absent before new)
    · have fresh : f ∉ imported := fun known =>
        (others.new.2 _ later).1 (List.mem_cons_of_mem _ known)
      rw [ih (behind.opened held) later]
      exact congrArg (· ++ _) (absent before fresh)
  | @repetition imported target rest ps word path _ _ others ih =>
    have new := (others.new.2 _ opened).1
    obtain ⟨before, behind⟩ := tagged.directive
    rw [consumed_cons, read_for_append, ih behind opened]
    exact congrArg (· ++ _) (absent before new)

/-- Whatever is taken stood ahead, or in a file that was opened. -/
theorem InPieces.origins (pieces : InPieces files imported stream ps) : ∀ x ∈ consumed ps,
    x ∈ stream ∨ ∃ e ∈ openedBy ps, x ∈ tokensOf (some e.1) e.2 := by
  induction pieces with
  | done => exact fun _ => nofun
  | declaration _ _ ih =>
    intro x member
    rcases List.mem_append.mp member with now | later
    · exact .inl (List.mem_append_left _ now)
    · exact (ih x later).imp_left (List.mem_append_right _)
  | @opening imported target content rest ps word path _ _ _ _ ih =>
    intro x member
    rcases List.mem_append (s := [word, path]).mp member with now | later
    · exact .inl (List.mem_append_left rest now)
    · rcases ih x later with ahead | ⟨e, opened, inside⟩
      · rcases List.mem_append.mp ahead with inside | behind
        · exact .inr ⟨_, List.mem_cons_self .., inside⟩
        · exact .inl (List.mem_append_right [word, path] behind)
      · exact .inr ⟨e, List.mem_cons_of_mem _ opened, inside⟩
  | @repetition imported target rest ps word path _ _ _ ih =>
    intro x member
    rcases List.mem_append (s := [word, path]).mp member with now | later
    · exact .inl (List.mem_append_left rest now)
    · exact (ih x later).imp_left (List.mem_append_right [word, path])

/-- Nothing is lost and nothing is taken twice: a file is opened at most once, and not if it counts as
imported, and its tokens are taken in their order, as are those of the source. -/
structure Conserves (files : FileTree) (imported : List FilePath) (ts : List Token) (ps : List Piece) :
    Prop where
  once : ((openedBy ps).map (·.1)).Nodup
  new : ∀ e ∈ openedBy ps, e.1 ∉ imported ∧ Holds files e.1 e.2
  source : readFor none (consumed ps) = tokensOf none ts
  opened : ∀ e ∈ openedBy ps, readFor (some e.1) (consumed ps) = tokensOf (some e.1) e.2
  origins : ∀ x ∈ consumed ps, x ∈ tokensOf none ts ∨ ∃ e ∈ openedBy ps, x ∈ tokensOf (some e.1) e.2

theorem InPieces.conserves {ts : List Token} (pieces : InPieces files imported (tokensOf none ts) ps) :
    Conserves files imported ts ps where
  once := pieces.new.1
  new := pieces.new.2
  source := (pieces.own fun f same => by cases same).trans (read_for_own none ts)
  opened := fun _ opened => pieces.opened (tagged_source imported ts) opened
  origins := pieces.origins

end Conservation

section Splices

/-- The tokens of the declarations, without those of directives. -/
def spliced (ps : List Piece) : List Token :=
  ps.flatMap fun p => match p with
    | .declaration _ taken => taken.map (·.token)
    | _ => []

/-- All tokens of the piece stand in one file. -/
def Piece.OneSource (p : Piece) : Prop := ∃ origin, ∀ x ∈ p.taken, x.origin = origin

/-- With some files imported, and others behind it, the tokens of a file are spliced: those of a file
that is opened come in the place of its import directive, after the same has been done for them, and
nothing comes in the place of a directive for a file that was imported before. -/
inductive Splices (files : FileTree) :
    List FilePath → List Token → List FilePath → List Token → Prop where
  | done {imported : List FilePath} : Splices files imported [] imported []
  | declaration {imported imported' : List FilePath} {d written rest out} (declares : Declares anyNumber d written)
    (others : Splices files imported rest imported' out) :
    Splices files imported (written ++ rest) imported' (written ++ out)
  | opening {imported between imported' : List FilePath} {target content rest inside out}
    {word path : Token}
    (directs : Directs files word path target) (new : target ∉ imported)
    (holds : Holds files target content) (inner : Splices files (target :: imported) content between inside)
    (others : Splices files between rest imported' out) :
    Splices files imported (word :: path :: rest) imported' (inside ++ out)
  | repetition {imported imported' : List FilePath} {target rest out} {word path : Token}
    (directs : Directs files word path target) (known : target ∈ imported)
    (others : Splices files imported rest imported' out) :
    Splices files imported (word :: path :: rest) imported' out

theorem Splices.subset {imported imported' : List FilePath} {ts out : List Token}
    (splices : Splices files imported ts imported' out) : imported ⊆ imported' := by
  induction splices with
  | done => exact fun _ => id
  | declaration _ _ ih => exact ih
  | opening _ _ _ _ _ inner outer =>
    exact fun f known => outer (inner (List.mem_cons_of_mem _ known))
  | repetition _ _ _ ih => exact ih

/-- Of a piece that stands in one file, and begins with the tokens of a file, all are tokens of it. -/
theorem front_of_one_source {own : List Token} {below taken rest : List Sourced} (present : own ≠ [])
    (taking : taken ≠ []) (one : ∃ origin, ∀ x ∈ taken, x.origin = origin)
    (apart : ∀ x ∈ below, x.origin ≠ origin) (split : tokensOf origin own ++ below = taken ++ rest) :
    ∃ written own', own = written ++ own' ∧ taken = tokensOf origin written ∧
      rest = tokensOf origin own' ++ below := by
  obtain ⟨t, more, rfl⟩ := List.exists_cons_of_ne_nil present
  obtain ⟨x, others, rfl⟩ := List.exists_cons_of_ne_nil taking
  obtain ⟨shared, same⟩ := one
  have first : x.origin = origin := by
    have head := (List.cons_eq_cons.mp split).1
    rw [← head]
  have all : ∀ y ∈ x :: others, y.origin = origin := fun y member =>
    (same y member).trans ((same x (List.mem_cons_self ..)).symm.trans first)
  rcases List.append_eq_append_iff.mp split with ⟨middle, whole, behind⟩ | ⟨middle, whole, behind⟩
  -- Either the piece reaches beyond the file, and then a token of it is of another one, or it does not.
  · cases middle with
    | nil =>
      refine ⟨t :: more, [], (List.append_nil _).symm, ?_, behind.symm⟩
      rw [whole, List.append_nil]
    | cons y middle =>
      have inside : y ∈ x :: others := whole ▸ List.mem_append_right _ (List.mem_cons_self ..)
      exact absurd (all y inside) (apart y (behind ▸ List.mem_cons_self ..))
  · obtain ⟨written, own', split', front, rfl⟩ := List.map_eq_append_iff.mp whole
    exact ⟨written, own', split', front.symm, behind⟩

theorem directive_of_one_source {own : List Token} {below rest : List Sourced} {word path : Sourced}
    (present : own ≠ []) (one : ∃ origin, ∀ x ∈ [word, path], x.origin = origin)
    (apart : ∀ x ∈ below, x.origin ≠ origin)
    (split : tokensOf origin own ++ below = word :: path :: rest) :
    ∃ own', own = word.token :: path.token :: own' ∧ rest = tokensOf origin own' ++ below := by
  have whole : tokensOf origin own ++ below = [word, path] ++ rest := split
  have taking : [word, path] ≠ [] := List.cons_ne_nil word [path]
  obtain ⟨front, own', rfl, taken, behind⟩ := front_of_one_source present taking one apart whole
  have tokens := congrArg (List.map (·.token)) taken
  rw [map_tokens_of] at tokens
  rw [← tokens]
  exact ⟨own', rfl, behind⟩

theorem spliced_append (ps ps' : List Piece) : spliced (ps ++ ps') = spliced ps ++ spliced ps' :=
  List.flatMap_append

/-- Where every piece stands in one file, the pieces of the file in front splice its tokens, and those
behind them go on with what is below. -/
theorem splices_of_pieces (n : Nat) : ∀ {ps imported origin own below}, ps.length ≤ n →
    InPieces files imported (tokensOf origin own ++ below) ps → (∀ p ∈ ps, p.OneSource) →
    Tagged imported (tokensOf origin own ++ below) → (∀ x ∈ below, x.origin ≠ origin) →
    ∃ first others imported', ps = first ++ others ∧
      Splices files imported own imported' (spliced first) ∧ InPieces files imported' below others := by
  -- On the number of pieces: behind an opened file they are read on where its own pieces have ended.
  induction n with
  | zero =>
    intro ps imported origin own below short pieces _ _ _
    obtain rfl := List.length_eq_zero_iff.mp (Nat.le_zero.mp short)
    generalize whole : tokensOf origin own ++ below = stream at pieces
    cases pieces
    obtain ⟨none, rfl⟩ := List.append_eq_nil_iff.mp whole
    obtain rfl := List.map_eq_nil_iff.mp none
    exact ⟨[], [], imported, rfl, .done, .done⟩
  | succ n ih =>
    intro ps imported origin own below short pieces one tagged apart
    by_cases present : own = []
    · subst present
      exact ⟨[], ps, imported, rfl, .done, pieces⟩
    generalize whole : tokensOf origin own ++ below = stream at pieces
    cases pieces with
    | done =>
      obtain ⟨none, _⟩ := List.append_eq_nil_iff.mp whole
      exact absurd (List.map_eq_nil_iff.mp none) present
    | @declaration _ d written rest ps declares others =>
      have taking : written ≠ [] := fun none => by
        rw [none] at declares
        exact absurd declares.two_le (by simp)
      have same := one _ (List.mem_cons_self ..)
      obtain ⟨front, own', rfl, rfl, rfl⟩ := front_of_one_source present taking same apart whole
      rw [tokens_of_append, List.append_assoc] at tagged
      obtain ⟨first, others', imported', rfl, splices, behind⟩ := ih (Nat.le_of_succ_le_succ short) others
        (fun p member => one p (List.mem_cons_of_mem _ member)) tagged.right apart
      rw [map_tokens_of] at declares
      refine ⟨.declaration d (tokensOf origin front) :: first, others', imported', rfl, ?_, behind⟩
      have out : spliced (.declaration d (tokensOf origin front) :: first) = front ++ spliced first := by
        change (tokensOf origin front).map (·.token) ++ spliced first = _
        rw [map_tokens_of]
      rw [out]
      exact .declaration declares splices
    | @opening _ target content rest ps word path directs new holds others =>
      have same := one _ (List.mem_cons_self ..)
      obtain ⟨own', rfl, rfl⟩ := directive_of_one_source present same apart whole
      have behind : Tagged imported (tokensOf origin own' ++ below) := tagged.directive.2
      obtain ⟨inner, others', between, rfl, splices, further⟩ := ih (Nat.le_of_succ_le_succ short) others
        (fun p member => one p (List.mem_cons_of_mem _ member)) (behind.opened content)
        (behind.other new)
      have fewer : others'.length ≤ n := by
        simp only [List.length_cons, List.length_append] at short
        omega
      have known : imported ⊆ between := fun f known => splices.subset (List.mem_cons_of_mem _ known)
      obtain ⟨outer, last, imported', rfl, splices', ended⟩ := ih fewer further
        (fun p member => one p (List.mem_cons_of_mem _ (List.mem_append_right _ member)))
        (fun x member f same => known (behind x member f same)) apart
      refine ⟨.opening target content word path :: (inner ++ outer), last, imported', ?_, ?_, ended⟩
      · rw [List.cons_append, List.append_assoc]
      · have out : spliced (.opening target content word path :: (inner ++ outer)) =
            spliced inner ++ spliced outer := spliced_append inner outer
        rw [out]
        exact .opening directs new holds splices splices'
    | @repetition _ target rest ps word path directs known others =>
      have same := one _ (List.mem_cons_self ..)
      obtain ⟨own', rfl, rfl⟩ := directive_of_one_source present same apart whole
      obtain ⟨first, others', imported', rfl, splices, behind⟩ := ih (Nat.le_of_succ_le_succ short) others
        (fun p member => one p (List.mem_cons_of_mem _ member)) tagged.directive.2 apart
      exact ⟨.repetition word path :: first, others', imported', rfl,
        .repetition directs known splices, behind⟩

theorem pieces_of_splices {imported imported' : List FilePath} {own out : List Token}
    (splices : Splices files imported own imported' out) : ∀ {origin below others},
      InPieces files imported' below others → ∃ first,
        InPieces files imported (tokensOf origin own ++ below) (first ++ others) ∧
          (∀ p ∈ first, p.OneSource) ∧ spliced first = out := by
  have directive : ∀ {origin : Option FilePath} {word path : Token} {p : Piece},
      p.taken = [⟨origin, word⟩, ⟨origin, path⟩] → p.OneSource := by
    intro origin word path p taken
    refine ⟨origin, fun x member => ?_⟩
    rw [taken] at member
    have own : x ∈ tokensOf origin [word, path] := member
    exact origin_of_mem own
  induction splices with
  | done => exact fun {_ _ _} behind => ⟨[], behind, fun _ => nofun, rfl⟩
  | @declaration _ _ d written rest out declares _ ih =>
    intro origin below others behind
    obtain ⟨first, pieces, one, rfl⟩ := @ih origin _ _ behind
    refine ⟨.declaration d (tokensOf origin written) :: first, ?_, fun p member => ?_, ?_⟩
    · rw [tokens_of_append, List.append_assoc]
      exact .declaration (by rwa [map_tokens_of]) pieces
    · rcases List.mem_cons.mp member with rfl | later
      · exact ⟨origin, fun x inside => origin_of_mem inside⟩
      · exact one p later
    · change (tokensOf origin written).map (·.token) ++ spliced first = _
      rw [map_tokens_of]
  | @opening _ _ _ target content rest inside out word path directs new holds _ _ inner outer =>
    intro origin below others behind
    obtain ⟨later, pieces, one, rfl⟩ := @outer origin _ _ behind
    obtain ⟨first, whole, one', rfl⟩ := @inner (some target) _ _ pieces
    refine ⟨.opening target content ⟨origin, word⟩ ⟨origin, path⟩ :: (first ++ later), ?_,
      fun p member => ?_, spliced_append first later⟩
    · rw [List.cons_append, List.append_assoc]
      exact .opening directs new holds whole
    · rcases List.mem_cons.mp member with rfl | behind
      · exact directive rfl
      · rcases List.mem_append.mp behind with inside | outside
        · exact one' p inside
        · exact one p outside
  | @repetition _ _ target rest out word path directs known _ ih =>
    intro origin below others behind
    obtain ⟨first, pieces, one, rfl⟩ := @ih origin _ _ behind
    refine ⟨.repetition ⟨origin, word⟩ ⟨origin, path⟩ :: first, .repetition directs known pieces,
      fun p member => ?_, rfl⟩
    rcases List.mem_cons.mp member with rfl | later
    · exact directive rfl
    · exact one p later

theorem Splices.begins {imported imported' : List FilePath} {ts out : List Token}
    (splices : Splices files imported ts imported' out) : Parser.Begins ts := by
  obtain ⟨first, pieces, _⟩ := @pieces_of_splices _ _ _ _ _ splices none _ _ .done
  have begins := pieces.begins
  rwa [List.append_nil, map_tokens_of] at begins

theorem Splices.front_opened {imported imported' : List FilePath} {target content rest out}
    {word path : Token} (splices : Splices files imported (word :: path :: rest) imported' out)
    (directs : Directs files word path target) (new : target ∉ imported)
    (holds : Holds files target content) :
    ∃ between inside, Splices files (target :: imported) content between inside := by
  generalize split : word :: path :: rest = ts at splices
  cases splices with
  | done => cases split
  | declaration declares => exact absurd directs.keyword (front_not_directive declares split.symm)
  | opening directs' _ holds' inner =>
    cases split
    obtain rfl := directs.unique directs'
    obtain rfl := holds.unique holds'
    exact ⟨_, _, inner⟩
  | repetition directs' known =>
    cases split
    exact absurd (directs.unique directs' ▸ known) new

theorem Splices.front_accepted {imported imported' : List FilePath} {t : Token} {rest out : List Token}
    (splices : Splices files imported (t :: rest) imported' out)
    (other : t.lexeme ≠ .keyword .importing) :
    ((Parser.parseDeclarations ⟨[], []⟩ 1 {}).run
      (Parser.View.state ⟨t :: rest, [], []⟩ default [])).isOk = true := by
  generalize split : t :: rest = ts at splices
  cases splices with
  | done => cases split
  | declaration declares others =>
    obtain ⟨last, ran⟩ := Parser.leads_front declares others.begins default
    rw [ran]
    rfl
  | opening directs =>
    cases split
    exact absurd directs.keyword other
  | repetition directs =>
    cases split
    exact absurd directs.keyword other

/-- The tokens of the declarations are those that splicing yields, exactly if every piece stands in one
file. -/
theorem InPieces.splices_iff {ts : List Token} (pieces : InPieces files imported (tokensOf none ts) ps) :
    (∀ p ∈ ps, p.OneSource) ↔ ∃ imported', Splices files imported ts imported' (spliced ps) := by
  have bottom : tokensOf none ts = tokensOf none ts ++ [] := (List.append_nil _).symm
  constructor
  · intro one
    have tagged := tagged_source imported ts
    rw [bottom] at pieces tagged
    obtain ⟨first, others, imported', rfl, splices, behind⟩ :=
      splices_of_pieces _ (Nat.le_refl _) pieces one tagged (by simp)
    obtain rfl : others = [] := by
      have none := behind.unique .done
      exact List.map_eq_nil_iff.mp none
    rw [List.append_nil]
    exact ⟨imported', splices⟩
  · rintro ⟨imported', splices⟩ p member
    obtain ⟨first, whole, one, _⟩ := @pieces_of_splices _ _ _ _ _ splices none _ _ .done
    rw [List.append_nil, List.append_nil] at whole
    have same := pieces.unique whole
    have listed : p.taken ∈ first.map Piece.taken := same ▸ List.mem_map_of_mem member
    obtain ⟨q, member', taken⟩ := List.mem_map.mp listed
    obtain ⟨origin, shared⟩ := one q member'
    exact ⟨origin, taken ▸ shared⟩

end Splices

section Runs

def fileOf (file : String) (x : Sourced) : String := (x.origin.map FilePath.text).getD file

theorem located {file source : String} {ts : List Token}
    (lexed : (TokenStream.ofSource file source).tokens = .ok ts)
    (pieces : InPieces files imported (tokensOf none ts) ps) :
    ∀ x ∈ consumed ps, x.token.location.file = fileOf file x := by
  have inside : ∀ {file source ts}, (TokenStream.ofSource file source).tokens = .ok ts →
      ∀ {origin}, ∀ x ∈ tokensOf origin ts, x.token.location.file = file := by
    intro file source ts lexed origin x member
    obtain ⟨t, listed, rfl⟩ := List.mem_map.mp member
    apply TokenStream.of_source_located t
    rw [Parser.stream_of_tokens lexed]
    exact List.mem_map_of_mem listed
  intro x member
  rcases pieces.origins x member with own | ⟨e, opened, held⟩
  · rw [fileOf, origin_of_mem own]
    exact inside lexed x own
  · obtain ⟨content, _, lexed'⟩ := (pieces.new.2 e opened).2
    rw [fileOf, origin_of_mem held]
    exact inside lexed' x held

theorem whole_stable {file source : String} {more : Nat}
    (named : file = "-" ∨ FileTree.hasNull (FilePath.ofText file) = false)
    (enough : source.length + files.totalSize + 1 ≤ more) :
    (Parser.whole files more).run'
        (Parser.start file (entry files file) (TokenStream.ofSource file source)) =
      SchemaTree.parse files file source := by
  rw [Parser.parse_eq files file source named, StateT.run'_eq, StateT.run'_eq]
  refine congrArg _ (Parser.run_bind_congr (Parser.read_ahead_within _) fun _ s began => ?_)
  obtain ⟨ahead, settled, _⟩ := began
  rw [StateT.run_bind, StateT.run_bind,
    Parser.declarations_stable _ settled (Parser.enough_before files ahead) enough]

/-- Parsing ends, whatever imports what. A tree that it returns is that of the declarations in the only
pieces that the tokens can be read in. Each file is opened at most once, the source itself never, and
all its tokens are taken, in their order. They are the spliced source exactly if no piece is made of
tokens of two files. -/
theorem imports_splice (files : FileTree) (file source : String) :
    (∀ more, file = "-" ∨ FileTree.hasNull (FilePath.ofText file) = false →
      source.length + files.totalSize + 1 ≤ more → (Parser.whole files more).run'
          (Parser.start file (entry files file) (TokenStream.ofSource file source)) =
        SchemaTree.parse files file source) ∧
    ∀ tree, SchemaTree.parse files file source = .ok tree → ∃ ts ps,
      (TokenStream.ofSource file source).tokens = .ok ts ∧
      InPieces files (entry files file) (tokensOf none ts) ps ∧
      tree = treeOf (declarationsOf ps) ∧
      (∀ ps', InPieces files (entry files file) (tokensOf none ts) ps' →
        ps'.map Piece.taken = ps.map Piece.taken) ∧
      Conserves files (entry files file) ts ps ∧
      (∀ x ∈ consumed ps, x.token.location.file = fileOf file x) ∧
      ((∀ p ∈ ps, p.OneSource) ↔
        ∃ imported', Splices files (entry files file) ts imported' (spliced ps)) := by
  refine ⟨fun more named enough => whole_stable named enough, fun tree parsed => ?_⟩
  obtain ⟨_, ts, ps, lexed, pieces, rfl⟩ := parse_iff_pieces.mp parsed
  exact ⟨ts, ps, lexed, pieces, rfl, fun ps' others => others.unique pieces, pieces.conserves,
    located lexed pieces, pieces.splices_iff⟩

def shopFiles : FileTree where
  workingDirectory := ["w"]
  entries := [(["w"], .directory), (["w", "lib"], .directory),
    (["w", "lib", "money.sdkgen"], .file ("import \"people\"\n" ++
      "type Price \x7b sum: decimal owed: Person? \x7d\nimport \"../shop\"").toUTF8.data.toList),
    (["w", "lib", "people.sdkgen"], .file ("import \"../lib/./money\"\n" ++
      "type Person \x7b name: string \x7d").toUTF8.data.toList)]

def shop : String := "import \"lib/money\" import \"lib/people\"\nfn pay(by: Person): Price"

theorem shop_spliced : ∃ tree ts ps, SchemaTree.parse shopFiles "shop.sdkgen" shop = .ok tree ∧
    tree.types.map (·.name) = ["Person", "Price"] ∧ tree = treeOf (declarationsOf ps) ∧
    Conserves shopFiles [⟨1, ["w", "shop.sdkgen"]⟩] ts ps := by
  have compiles : ((SchemaTree.parse shopFiles "shop.sdkgen" shop).toOption.map fun tree =>
      decide (tree.types.map (·.name) = ["Person", "Price"])) = some true := by
    simp only [SchemaTree.parse_by_chars]
    decide +kernel
  obtain ⟨tree, parsed, types⟩ := Option.map_eq_some_iff.mp compiles
  have parsed := ok_of_to_option parsed
  obtain ⟨ts, ps, _, _, same, _, conserves, _⟩ := (imports_splice _ _ _).2 tree parsed
  have itself : entry shopFiles "shop.sdkgen" = [⟨1, ["w", "shop.sdkgen"]⟩] := by decide +kernel
  exact ⟨tree, ts, ps, parsed, of_decide_eq_true types, same, itself ▸ conserves⟩

/-- The first file leaves an enum open, in which the directive for the second file stands. -/
def gapFiles : FileTree where
  workingDirectory := []
  entries := [(["c.sdkgen"], .file "type E enum \x7b".toUTF8.data.toList),
    (["x.sdkgen"], .file "late early".toUTF8.data.toList)]

def gap : String := "import \"c\"\nimport \"x\"\n\x7d\nfn f(e: E)"

/-- A directive is read as two values of the enum that is still open, and its file never. -/
theorem directive_read_as_values : ∃ tree ts,
    SchemaTree.parse gapFiles "main.sdkgen" gap = .ok tree ∧
    tree.types.map (fun d => (d.name, match d.type with
      | .enum _ values _ => values.map (·.text)
      | _ => [])) = [("E", ["import", "x"])] ∧
    (TokenStream.ofSource "main.sdkgen" gap).tokens = .ok ts ∧
    ∀ imported' out, ¬ Splices gapFiles (entry gapFiles "main.sdkgen") ts imported' out := by
  have compiles : ((SchemaTree.parse gapFiles "main.sdkgen" gap).toOption.map fun tree =>
      decide (tree.types.map (fun d => (d.name, match d.type with
        | .enum _ values _ => values.map (·.text)
        | _ => [])) = [("E", ["import", "x"])])) = some true := by
    simp only [SchemaTree.parse_by_chars]
    decide +kernel
  obtain ⟨tree, parsed, values⟩ := Option.map_eq_some_iff.mp compiles
  have parsed := ok_of_to_option parsed
  obtain ⟨_, ts, _, lexed, _⟩ := parse_iff_pieces.mp parsed
  refine ⟨tree, ts, parsed, of_decide_eq_true values, lexed, fun imported' out splices => ?_⟩
  have front : (TokenStream.ofSource "main.sdkgen" gap).tokens.toOption.map (·.take 2) =
      some [⟨.keyword .importing, ⟨"main.sdkgen", ⟨1, 1⟩⟩⟩, ⟨.string "c", ⟨"main.sdkgen", ⟨1, 8⟩⟩⟩] := by
    simp only [TokenStream.of_source_by_chars]
    decide +kernel
  have itself : Parser.importPath gapFiles "main.sdkgen" "c" ∉ entry gapFiles "main.sdkgen" := by
    decide +kernel
  have held : (gapFiles.readText (Parser.importPath gapFiles "main.sdkgen" "c")).toOption =
      some "type E enum \x7b" := by
    decide +kernel
  have unfinished : (TokenStream.ofSource (Parser.importPath gapFiles "main.sdkgen" "c").text
      "type E enum \x7b").tokens.toOption.map (fun content => decide (
        (∃ t, content.head? = some t ∧ t.lexeme ≠ .keyword .importing) ∧
        ((Parser.parseDeclarations ⟨[], []⟩ 1 {}).run
          (Parser.View.state ⟨content, [], []⟩ default [])).isOk = false)) = some true := by
    simp only [TokenStream.of_source_by_chars]
    decide +kernel
  rw [lexed] at front
  have taken : ts.take 2 = _ := Option.some.inj front
  obtain ⟨content, lexed', refused⟩ := Option.map_eq_some_iff.mp unfinished
  obtain ⟨⟨t, first, other⟩, refused⟩ := of_decide_eq_true refused
  obtain ⟨rest, rfl⟩ := List.head?_eq_some_iff.mp first
  rw [← List.take_append_drop 2 ts, taken] at splices
  obtain ⟨between, inside, inner⟩ := splices.front_opened ⟨rfl, "c", rfl, rfl⟩ itself
    ⟨_, ok_of_to_option held, ok_of_to_option lexed'⟩
  rw [inner.front_accepted other] at refused
  cases refused

end Runs

end ApiSchema.Grammar
