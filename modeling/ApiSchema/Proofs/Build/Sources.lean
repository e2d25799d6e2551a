import ApiSchema.Build
import ApiSchema.Proofs.FileTree.Writing
import ApiSchema.Proofs.Text.Pieces
import ApiSchema.Proofs.Tree.Pieces

/-! What compiling reads of a tree of files: the file that it is given, and files with the ending of
sources on plain ways. Whatever holds the same of these is compiled to the same. -/

namespace ApiSchema

def sourceEnding : String := ".sdkgen"

section Paths

theorem Text.split_ending {separator : Char} {ending : List Char} (plain : separator ∉ ending) (cs : List Char) :
    ∃ front last, split separator (cs ++ ending) = front ++ [last ++ ending] := by
  induction cs with
  | nil => exact ⟨[], [], split_plain plain⟩
  | cons c cs ih =>
    obtain ⟨front, last, same⟩ := ih
    by_cases here : c = separator
    · exact ⟨[] :: front, last, by rw [List.cons_append, split, if_pos here, same]; rfl⟩
    · rw [List.cons_append, split, if_neg here, same]
      cases front with
      | nil => exact ⟨[], c :: last, rfl⟩
      | cons first front => exact ⟨(c :: first) :: front, last, rfl⟩

theorem FilePath.flatten_concat {segments : List String} {s : String} (down : s ≠ "..") :
    flatten (segments ++ [s]) = flatten segments ++ [s] := by
  rw [flatten, List.foldl_append]
  exact if_neg down

theorem source_ending_proper (cs : List Char) :
    String.ofList (cs ++ sourceEnding.toList) ≠ "" ∧ String.ofList (cs ++ sourceEnding.toList) ≠ "." ∧
      String.ofList (cs ++ sourceEnding.toList) ≠ ".." := by
  have long : ∀ text : String, text.toList.length < 7 → String.ofList (cs ++ sourceEnding.toList) ≠ text := by
    rintro _ short rfl
    rw [String.toList_ofList, List.length_append] at short
    have seven : sourceEnding.toList.length = 7 := by decide
    omega
  exact ⟨long _ (by decide), long _ (by decide), long _ (by decide)⟩

theorem has_ending_iff {p : FilePath} {ending : String} :
    p.hasEnding ending = true ↔ ending.toList <:+ p.name.toList := List.isSuffixOf_iff_suffix

theorem proper_of_ending {p : FilePath} (source : p.hasEnding sourceEnding = true) :
    p.segments ≠ [] ∧ p.name ≠ ".." := by
  obtain ⟨front, same⟩ := has_ending_iff.mp source
  have name : p.name = .ofList (front ++ sourceEnding.toList) := by rw [same, String.ofList_toList]
  obtain ⟨some, _, down⟩ := source_ending_proper front
  refine ⟨fun none => some ?_, name ▸ down⟩
  rw [← name, FilePath.name, none]
  rfl

theorem Parser.import_path_source (files : FileTree) (importing path : String) :
    (importPath files importing path).hasEnding sourceEnding = true ∧
      ".." ∉ (importPath files importing path).segments := by
  refine ⟨?_, FilePath.flatten_plain _⟩
  have whole : '/' ∉ sourceEnding.toList := by decide
  obtain ⟨front, last, pieces⟩ := Text.split_ending whole path.toList
  obtain ⟨some, other, down⟩ := source_ending_proper last
  have segments : ∃ before, (FilePath.ofText (path ++ ".sdkgen")).segments =
      before ++ [.ofList (last ++ sourceEnding.toList)] := by
    refine ⟨(front.map String.ofList).filter fun p => p != "" && p != ".", ?_⟩
    change ((Text.split '/' (path ++ ".sdkgen").toList).map String.ofList).filter _ = _
    rw [String.toList_append]
    change ((Text.split '/' (path.toList ++ sourceEnding.toList)).map String.ofList).filter _ = _
    rw [pieces, List.map_append, List.filter_append]
    congr 1
    exact List.filter_cons_of_pos (Bool.and_eq_true_iff.mpr ⟨bne_iff_ne.mpr some, bne_iff_ne.mpr other⟩)
  obtain ⟨before, segments⟩ := segments
  have joined : ∃ above, (((FilePath.ofText importing).parent).join (.ofText (path ++ ".sdkgen"))).segments =
      above ++ [.ofList (last ++ sourceEnding.toList)] := by
    unfold FilePath.join
    split
    · exact ⟨before, segments⟩
    · exact ⟨_ ++ before, by rw [segments, ← List.append_assoc]⟩
  obtain ⟨above, joined⟩ := joined
  rw [has_ending_iff]
  unfold importPath FileTree.resolve FilePath.name
  dsimp only
  rw [joined, ← List.append_assoc, FilePath.flatten_concat down, List.getLast?_concat]
  exact ⟨last, by rw [Option.getD_some, String.toList_ofList]⟩

end Paths

namespace Grammar

variable {files files' : FileTree} {imported : List FilePath} {stream : List Sourced} {ps : List Piece}
  {file source : String} {tree : SchemaTree}

/-- The second tree has every source that the first one has, on plain ways. -/
structure Supplies (files files' : FileTree) : Prop where
  working : files'.workingDirectory = files.workingDirectory
  sources : ∀ p content, p.hasEnding sourceEnding = true → ".." ∉ p.segments →
    files.readText p = .ok content → files'.readText p = .ok content

theorem Supplies.resolve (supplies : Supplies files files') (p : FilePath) :
    files'.resolve p = files.resolve p := by
  unfold FileTree.resolve
  rw [supplies.working]

theorem InPieces.supplied (pieces : InPieces files imported stream ps) (supplies : Supplies files files') :
    InPieces files' imported stream ps := by
  have directs : ∀ {word path target}, Directs files word path target → Directs files' word path target := by
    rintro word path _ ⟨keyword, text, string, rfl⟩
    exact ⟨keyword, text, string, (supplies.resolve _).symm⟩
  induction pieces with
  | done => exact .done
  | declaration declares _ ih => exact .declaration declares ih
  | opening directed new holds _ ih =>
    obtain ⟨text, _, rfl⟩ := directed.path
    obtain ⟨content, read, lexed⟩ := holds
    obtain ⟨ending, plain⟩ := Parser.import_path_source files _ text
    exact .opening (directs directed) new ⟨content, supplies.sources _ _ ending plain read, lexed⟩ ih
  | repetition directed known _ ih => exact .repetition (directs directed) known ih

theorem parse_supplied (supplies : Supplies files files') (parsed : SchemaTree.parse files file source = .ok tree) :
    SchemaTree.parse files' file source = .ok tree := by
  obtain ⟨named, ts, ps, lexed, pieces, same⟩ := parse_iff_pieces.mp parsed
  have own : entry files' file = entry files file := by
    unfold entry
    rw [supplies.resolve]
  exact parse_iff_pieces.mpr ⟨named, ts, ps, lexed, own ▸ pieces.supplied supplies, same⟩

end Grammar

namespace Build

open Grammar (Supplies)

variable {tree tree' : FileTree} {path : FilePath} {s : Schema}

theorem compile_ok : compile tree path = .ok s ↔ ∃ source parsed, tree.readText path = .ok source ∧
    SchemaTree.parse tree path.text source = .ok parsed ∧ (Schema.ofTree parsed).analyse = .ok s := by
  unfold compile
  cases read : tree.readText path with
  | error e => simp [Except.mapError, bind, Except.bind]
  | ok source =>
    cases parsed : SchemaTree.parse tree path.text source with
    | error e => simp [Except.mapError, bind, Except.bind, parsed]
    | ok parsed' =>
      cases accepted : (Schema.ofTree parsed').analyse <;>
        simp [Except.mapError, bind, Except.bind, parsed, accepted]

theorem compile_supplied (supplies : Supplies tree tree')
    (own : ∀ content, tree.readText path = .ok content → tree'.readText path = .ok content)
    (compiled : compile tree path = .ok s) : compile tree' path = .ok s := by
  obtain ⟨source, parsed, read, parses, accepted⟩ := compile_ok.mp compiled
  exact compile_ok.mpr ⟨source, parsed, own source read, Grammar.parse_supplied supplies parses, accepted⟩

end Build

end ApiSchema
