import ApiSchema.Proofs.Token.Locating
import ApiSchema.Proofs.Tree.Arguments
import ApiSchema.Proofs.Tree.Sites
import Mathlib.Data.List.Flatten

/-! Where the annotations of a source are in its tree. Each is there once, at the part whose first token is
the next one, or at the argument that it is about. -/

namespace ApiSchema

def TypeDeclaration.sites (d : TypeDeclaration) : List Site := .type d :: d.type.sites

def ErrorDeclaration.sites (e : ErrorDeclaration) : List Site := .error e :: e.data.sites

def FunctionDeclaration.sites (f : FunctionDeclaration) : List Site :=
  .function f :: (MemberTree.allSites f.members ++ f.returns.sites)

def SchemaTree.sites (tree : SchemaTree) : List Site :=
  tree.types.flatMap (·.sites) ++ tree.errors.flatMap (·.sites) ++ tree.functions.flatMap (·.sites)

/-- The annotations of a tree, each with the part that it sits on. -/
def SchemaTree.bearings (tree : SchemaTree) : List (Site × Note) := tree.sites.flatMap Site.bearings

namespace Grammar

def Declaration.sites : Declaration → List Site
  | .type d => d.sites
  | .error e => e.sites
  | .function _ f => f.sites

section Arguments

/-- What some notes of a function say about a member, which all of them describe. -/
def saidOf (all notes : List Note) : MemberTree → List (Site × Note)
  | .field (.mk name type secret own location) => (notes.filterMap (describes? name)).map
      (.field (.mk name type secret (own ++ all.filterMap (describes? name)) location), ·)
  | .spread .. => []

variable {all notes : List Note} {note : Note} {ms : List MemberTree} {name text : String}

theorem said_other (other : isAboutArgument note = false) (m : MemberTree) :
    saidOf all (note :: notes) m = saidOf all notes m := by
  have silent : ∀ name, describes? name note = none := by
    intro name
    obtain ⟨content, location⟩ := note
    cases content with
    | argument => cases other
    | _ => rfl
  cases m with
  | field f =>
    cases f
    simp only [saidOf, List.filterMap_cons, silent]
  | spread => rfl

theorem said_absent (about : note.content = .argument name text) (absent : name ∉ MemberTree.fieldNames ms) :
    ms.flatMap (saidOf all (note :: notes)) = ms.flatMap (saidOf all notes) := by
  refine List.flatMap_congr fun m member => ?_
  cases m with
  | field f =>
    obtain ⟨other, type, secret, own, location⟩ := f
    have apart : other ≠ name := fun same =>
      absent (List.mem_filterMap.mpr ⟨_, member, by rw [← same]; rfl⟩)
    simp only [saidOf, List.filterMap_cons, describes?, about, if_neg apart]
  | spread => rfl

theorem said_once (about : note.content = .argument name text) (named : name ∈ MemberTree.fieldNames ms)
    (distinct : (MemberTree.fieldNames ms).Nodup) :
    ∃ g, .field g ∈ ms.map (described all) ∧ g.name = name ∧
      (ms.flatMap (saidOf all (note :: notes))).Perm
        ((.field g, .describe text note.location) :: ms.flatMap (saidOf all notes)) := by
  induction ms with
  | nil => cases named
  | cons m ms ih =>
    cases m with
    | spread =>
      obtain ⟨g, member, same, perm⟩ := ih named distinct
      exact ⟨g, List.mem_cons_of_mem _ member, same, perm⟩
    | field f =>
      obtain ⟨other, type, secret, own, location⟩ := f
      obtain ⟨fresh, distinct⟩ := List.nodup_cons.mp distinct
      by_cases here : other = name
      · subst here
        refine ⟨_, List.mem_cons_self .., rfl, ?_⟩
        rw [List.flatMap_cons, List.flatMap_cons, said_absent about fresh]
        simp only [saidOf, List.filterMap_cons, describes?, about, if_pos]
        exact .refl _
      · obtain ⟨g, member, same, perm⟩ := ih ((List.mem_cons.mp named).resolve_left (Ne.symm here)) distinct
        refine ⟨g, List.mem_cons_of_mem _ member, same, ?_⟩
        rw [List.flatMap_cons, List.flatMap_cons]
        have unsaid : saidOf all (note :: notes) (.field (.mk other type secret own location)) =
            saidOf all notes (.field (.mk other type secret own location)) := by
          simp only [saidOf, List.filterMap_cons, describes?, about, if_neg here]
        rw [unsaid]
        exact (perm.append_left _).trans List.perm_middle

variable {fs : List FunctionDeclaration} {f : FunctionDeclaration} {noted : List Token} {next : Token}

theorem Notes.distributed (annotated : Notes noted notes) (listed : f ∈ fs)
    (first : f.location = next.location) (members : f.members = ms.map (described all))
    (distinct : (MemberTree.fieldNames ms).Nodup) (targets : Targets notes ms) :
    ∃ l, l.Perm ((notes.filter (!isAboutArgument ·)).map (.function f, ·) ++ ms.flatMap (saidOf all notes)) ∧
      List.Forall₂ (Lands fs) (noted.map (·, some next)) l := by
  induction annotated with
  | nil =>
    have none : ms.flatMap (saidOf all []) = [] := by
      refine List.flatMap_eq_nil_iff.mpr fun m _ => ?_
      cases m with
      | field f =>
        cases f
        rfl
      | spread => rfl
    exact ⟨[], by rw [none]; exact .refl _, .nil⟩
  | @cons token note noted notes own _ ih =>
    obtain ⟨here, targets⟩ := List.forall_mem_cons.mp targets
    obtain ⟨l, perm, lands⟩ := ih targets
    cases about : isAboutArgument note with
    | false =>
      refine ⟨(.function f, note) :: l, ?_, .cons (.own own first fun _ _ => about) lands⟩
      rw [List.filter_cons_of_pos (by simp [about]),
        List.flatMap_congr fun m _ => said_other about m]
      exact perm.cons _
    | true =>
      obtain ⟨name, text, content⟩ : ∃ name text, note.content = .argument name text := by
        unfold isAboutArgument at about
        split at about
        · next name text content => exact ⟨name, text, content⟩
        · cases about
      obtain ⟨g, member, same, said⟩ := said_once content (here name text content) distinct
      have located : note.location = token.location := by
        obtain ⟨_, _, _, _, rfl⟩ := own
        rfl
      have written : IsNote token ⟨.argument g.name text, token.location⟩ := by
        rw [same, ← content, ← located]
        exact own
      refine ⟨(.field g, .describe text note.location) :: l, ?_, .cons ?_ lands⟩
      · rw [List.filter_cons_of_neg (by simp [about])]
        exact (perm.cons _).trans (List.perm_middle.symm.trans (said.symm.append_left _))
      · rw [located]
        exact .argument listed first (members ▸ member) written

def Phrase.IsBare : Phrase → Prop
  | .argument m => ∀ f, m = .field f → f.notes = []
  | .arguments ms => ∀ f, .field f ∈ ms → f.notes = []
  | _ => True

theorem Derives.bare {marks : Nat → Prop} {phrase : Phrase} {ts : List Token}
    (derived : Derives marks phrase ts) : phrase.IsBare := by
  induction derived with
  | inherited spread =>
    cases spread
    exact fun _ same => by cases same
  | own _ bare _ => exact fun _ same => by cases same; exact bare
  | none => exact nofun
  | last _ ih => exact fun f listed => ih f (List.mem_singleton.mp listed).symm
  | more _ _ _ first others =>
    intro f listed
    rcases List.mem_cons.mp listed with same | later
    · exact first f same.symm
    · exact others f later
  | _ => trivial

theorem described_bearings (all : List Note) (bare : ∀ f, .field f ∈ ms → f.notes = []) :
    ((MemberTree.allSites (ms.map (described all))).flatMap Site.bearings).Perm
      (ms.flatMap (saidOf all all) ++ (MemberTree.allSites ms).flatMap Site.bearings) := by
  induction ms with
  | nil => exact .refl _
  | cons m ms ih =>
    have others := ih fun f listed => bare f (List.mem_cons_of_mem _ listed)
    have first : (described all m).sites.flatMap Site.bearings =
        saidOf all all m ++ m.sites.flatMap Site.bearings := by
      cases m with
      | spread => rfl
      | field f =>
        have own := bare f (List.mem_cons_self ..)
        obtain ⟨name, type, secret, notes, location⟩ := f
        obtain rfl : notes = [] := own
        rfl
    rw [List.map_cons, MemberTree.allSites, MemberTree.allSites, List.flatMap_append, List.flatMap_append,
      List.flatMap_cons, first, List.append_assoc, List.append_assoc]
    refine .append_left _ ((others.append_left _).trans ?_)
    rw [← List.append_assoc, ← List.append_assoc]
    exact List.perm_append_comm.append_right _

end Arguments

section Declarations

variable {marks : Nat → Prop} {fs : List FunctionDeclaration} {ts : List Token} {d : Declaration}

theorem Announced.lands {fallback : Location} {t : TypeTree} (announced : Announced marks fallback t ts) :
    List.Forall₂ (Lands fs) (annotated ts) (t.sites.flatMap Site.bearings) := by
  cases announced with
  | silent => exact .nil
  | colon written type =>
    rw [annotated_other (mark_not_note written)]
    exact type.lands

theorem Payload.lands {fallback : Location} {t : TypeTree} (data : Payload marks fallback t ts) :
    List.Forall₂ (Lands fs) (annotated ts) (t.sites.flatMap Site.bearings) := by
  cases data with
  | announced announced => exact announced.lands
  | bare type => exact type.lands

theorem Declares.lands (declares : Declares marks d ts) (listed : ∀ word f, d = .function word f → f ∈ fs) :
    ∃ l, l.Perm (d.sites.flatMap Site.bearings) ∧ List.Forall₂ (Lands fs) (annotated ts) l := by
  cases declares with
  | @type noted notes word label name equals t ts annotated keyword named capital defined type =>
    refine ⟨(Site.type ⟨name, t, notes, word.location⟩).bearings ++ t.sites.flatMap Site.bearings, .refl _,
      Notes.lands annotated (keyword_not_note keyword) rfl nofun ?_⟩
    rw [annotated_other (name_not_note named), annotated_append defined.finishes, defined.annotated_none]
    exact type.lands
  | @error noted notes word label name t ts annotated keyword named capital data =>
    refine ⟨(Site.error ⟨name, t, notes, word.location⟩).bearings ++ t.sites.flatMap Site.bearings, .refl _,
      Notes.lands annotated (keyword_not_note keyword) rfl nofun ?_⟩
    rw [annotated_other (name_not_note named)]
    exact data.lands
  | @function noted notes word label name left ms args right t ts annotated keyword named opens arguments
      distinct closes targets returns =>
    obtain ⟨_, _, keyword⟩ := keyword
    obtain ⟨l, perm, lands⟩ := Notes.distributed annotated (listed _ _ rfl) rfl rfl distinct targets
    refine ⟨l ++ ((MemberTree.allSites ms).flatMap Site.bearings ++ t.sites.flatMap Site.bearings), ?_, ?_⟩
    · have spread := described_bearings notes arguments.bare
      rw [Declaration.sites, FunctionDeclaration.sites, List.flatMap_cons, List.flatMap_append]
      refine (perm.append_right _).trans ?_
      rw [List.append_assoc]
      refine .append_left _ ?_
      rw [← List.append_assoc]
      exact spread.symm.append_right _
    · rw [annotated_noted annotated.are_notes (keyword_not_note keyword), annotated_other (name_not_note named),
        annotated_other (mark_not_note opens), annotated_append arguments.finishes,
        annotated_other (mark_not_note closes)]
      exact List.rel_append lands (List.rel_append arguments.lands returns.lands)

theorem Announced.placed {fallback : Location} {t : TypeTree} (announced : Announced marks fallback t ts) :
    Placed t.sites ts := by
  cases announced with
  | silent => exact .none _
  | colon written type => exact type.placed.cons _

theorem Payload.placed {fallback : Location} {t : TypeTree} (data : Payload marks fallback t ts) :
    Placed t.sites ts := by
  cases data with
  | announced announced => exact announced.placed
  | bare type => exact type.placed

theorem placed_described (all : List Note) {ms : List MemberTree} (placed : Placed (MemberTree.allSites ms) ts) :
    Placed (MemberTree.allSites (ms.map (described all))) ts := by
  have same : (MemberTree.allSites (ms.map (described all))).map Site.location =
      (MemberTree.allSites ms).map Site.location := by
    clear placed
    induction ms with
    | nil => rfl
    | cons m ms ih =>
      have first : (described all m).sites.map Site.location = m.sites.map Site.location := by
        cases m with
        | field f =>
          cases f
          rfl
        | spread => rfl
      rw [List.map_cons, MemberTree.allSites, MemberTree.allSites, List.map_append, List.map_append, first, ih]
  unfold Placed
  rw [same]
  exact placed

theorem Declares.placed (declares : Declares marks d ts) : Placed d.sites ts := by
  cases declares with
  | type _ _ _ _ _ type => exact (Placed.here rfl ((type.placed.behind _).cons _)).behind _
  | error _ _ _ _ data => exact (Placed.here rfl (data.placed.cons _)).behind _
  | @function noted notes word label name left ms args right t ts _ _ _ _ arguments _ _ _ returns =>
    have inside := (placed_described notes arguments.placed).append (returns.placed.cons right)
    exact (Placed.here rfl ((inside.cons _).cons _)).behind _

theorem sites_of_tree (ds : List Declaration) : (treeOf ds).sites.Perm (ds.flatMap (·.sites)) := by
  induction ds with
  | nil => exact .refl _
  | cons d ds ih =>
    rw [List.flatMap_cons]
    refine .trans ?_ (ih.append_left _)
    change (d.join (treeOf ds)).sites.Perm _
    unfold SchemaTree.sites
    cases d with
    | type d => rw [Declaration.sites, ← List.append_assoc, ← List.append_assoc]; exact .refl _
    | error e =>
      rw [← List.append_assoc]
      exact List.perm_append_comm_assoc .. |>.append_right _
    | function word f => exact List.perm_append_comm_assoc ..

end Declarations

section Pieces

variable {files : FileTree} {imported : List FilePath} {stream : List Sourced} {ps : List Piece}
  {fs : List FunctionDeclaration}

theorem annotated_directive {word path : Token} {rest : List Token} {target : FilePath}
    (directs : Directs files word path target) : annotated (word :: path :: rest) = annotated rest := by
  obtain ⟨text, string, _⟩ := directs.path
  rw [annotated_other (keyword_not_note directs.keyword),
    annotated_other (not_note fun text note => by cases string.symm.trans note)]

theorem InPieces.lands (pieces : InPieces files imported stream ps)
    (listed : ∀ word f, .function word f ∈ declarationsOf ps → f ∈ fs) :
    ∃ l, l.Perm (((declarationsOf ps).flatMap (·.sites)).flatMap Site.bearings) ∧
      List.Forall₂ (Lands fs) (annotated ((consumed ps).map (·.token))) l := by
  induction pieces with
  | done => exact ⟨[], .refl _, .nil⟩
  | @declaration imported d written rest ps declares _ ih =>
    have own : ∀ word f, d = .function word f → f ∈ fs := fun word f same =>
      listed word f (same ▸ List.mem_cons_self ..)
    obtain ⟨l, perm, lands⟩ := declares.lands own
    obtain ⟨l', perm', lands'⟩ := ih fun word f member => listed word f (List.mem_cons_of_mem _ member)
    refine ⟨l ++ l', ?_, ?_⟩
    · change List.Perm _ (((d :: declarationsOf ps).flatMap (·.sites)).flatMap Site.bearings)
      rw [List.flatMap_cons, List.flatMap_append]
      exact perm.append perm'
    · rw [consumed_cons, List.map_append, Piece.taken, annotated_append declares.finishes]
      exact List.rel_append lands lands'
  | opening directs _ _ _ ih =>
    obtain ⟨l, perm, lands⟩ := ih listed
    refine ⟨l, perm, ?_⟩
    rw [consumed_cons, List.map_append]
    exact (annotated_directive directs).symm ▸ lands
  | repetition directs _ _ ih =>
    obtain ⟨l, perm, lands⟩ := ih listed
    refine ⟨l, perm, ?_⟩
    rw [consumed_cons, List.map_append]
    exact (annotated_directive directs).symm ▸ lands

theorem InPieces.placed (pieces : InPieces files imported stream ps) :
    Placed ((declarationsOf ps).flatMap (·.sites)) ((consumed ps).map (·.token)) := by
  induction pieces with
  | done => exact .none _
  | declaration declares _ ih =>
    rw [consumed_cons, List.map_append]
    exact declares.placed.append ih
  | opening _ _ _ _ ih | repetition _ _ _ ih =>
    rw [consumed_cons, List.map_append]
    exact ih.behind _

theorem InPieces.consumed_alone (pieces : InPieces files imported stream ps) (alone : openedBy ps = []) :
    consumed ps = stream := by
  induction pieces with
  | done => rfl
  | declaration _ _ ih => exact congrArg (_ ++ ·) (ih alone)
  | opening => cases alone
  | repetition _ _ _ ih => exact congrArg (_ :: _ :: ·) (ih alone)

theorem InPieces.alone (pieces : InPieces files imported stream ps)
    (plain : ∀ x ∈ stream, x.token.lexeme ≠ .keyword .importing) : openedBy ps = [] := by
  induction pieces with
  | done => rfl
  | declaration _ _ ih => exact ih fun x member => plain x (List.mem_append_right _ member)
  | opening directs => exact absurd directs.keyword (plain _ (List.mem_cons_self ..))
  | repetition directs => exact absurd directs.keyword (plain _ (List.mem_cons_self ..))

variable {file source : String} {tree : SchemaTree}

theorem mem_functions {word : Token} {f : FunctionDeclaration} {ds : List Declaration}
    (listed : .function word f ∈ ds) : f ∈ (treeOf ds).functions := by
  induction ds with
  | nil => cases listed
  | cons d ds ih =>
    change f ∈ (d.join (treeOf ds)).functions
    rcases List.mem_cons.mp listed with rfl | later
    · exact List.mem_cons_self ..
    · cases d with
      | type | error => exact ih later
      | function => exact List.mem_cons_of_mem _ (ih later)

/-- Each annotation among the tokens that are taken is in the tree once, and nothing else is annotated.
It sits where the first token behind it that is none tells. In a source that opens no file, these are all
its tokens, and different parts of its tree stand at different ones. -/
theorem annotations_placed (parsed : SchemaTree.parse files file source = .ok tree) : ∃ ts ps l,
    (TokenStream.ofSource file source).tokens = .ok ts ∧
    InPieces files (entry files file) (tokensOf none ts) ps ∧
    l.Perm tree.bearings ∧
    List.Forall₂ (Lands tree.functions) (annotated ((consumed ps).map (·.token))) l ∧
    (openedBy ps = [] → (consumed ps).map (·.token) = ts ∧ (tree.sites.map Site.location).Nodup) := by
  obtain ⟨_, ts, ps, lexed, pieces, rfl⟩ := parse_iff_pieces.mp parsed
  obtain ⟨l, perm, lands⟩ := pieces.lands fun word f listed => mem_functions listed
  have sites := sites_of_tree (declarationsOf ps)
  refine ⟨ts, ps, l, lexed, pieces, perm.trans (sites.symm.flatMap_right _), lands, fun alone => ?_⟩
  have all : (consumed ps).map (·.token) = ts := by rw [pieces.consumed_alone alone, map_tokens_of]
  refine ⟨all, (sites.map _).nodup_iff.mpr ?_⟩
  have placed := pieces.placed
  rw [all] at placed
  exact placed.nodup (TokenStream.locations_distinct lexed)

def signposted : String := "@description of A\ntype A \x7b\n  @description of x\n" ++
  "  x: enum \x7b @description of y\n y \x7d \x7d\n" ++
  "@arg a of a\n@description of f\nfn f(a: A)"

theorem signposted_placed : ∃ tree ts l, SchemaTree.parse ⟨[], []⟩ "-" signposted = .ok tree ∧
    (TokenStream.ofSource "-" signposted).tokens = .ok ts ∧ (annotated ts).length = 5 ∧
    l.Perm tree.bearings ∧ List.Forall₂ (Lands tree.functions) (annotated ts) l ∧
    (tree.sites.map Site.location).Nodup := by
  have parses : (SchemaTree.parse ⟨[], []⟩ "-" signposted).isOk = true := by
    simp only [SchemaTree.parse_by_chars]
    decide +kernel
  have tokens : ((TokenStream.ofSource "-" signposted).tokens.toOption.map fun ts =>
      decide ((annotated ts).length = 5 ∧ ∀ t ∈ ts, t.lexeme ≠ .keyword .importing)) = some true := by
    simp only [TokenStream.of_source_by_chars]
    decide +kernel
  obtain ⟨tree, parsed⟩ := exists_of_is_ok parses
  obtain ⟨ts, ps, l, lexed, pieces, perm, lands, alone⟩ := annotations_placed parsed
  rw [lexed] at tokens
  obtain ⟨many, plain⟩ := of_decide_eq_true (Option.some.inj tokens)
  have none := pieces.alone fun x member => by
    obtain ⟨t, listed, rfl⟩ := List.mem_map.mp member
    exact plain t listed
  obtain ⟨all, distinct⟩ := alone none
  rw [all] at lands
  exact ⟨tree, ts, l, parsed, lexed, many, perm, lands, distinct⟩

end Pieces

end Grammar

end ApiSchema
