import CssExtract.Proofs.Resolution
import Mathlib.Data.List.TakeWhile

namespace CssExtract

open Text

def Path.withSuffix (p : Path) (suffix : String) : Path :=
  ⟨p.anchor, p.parts.dropLast ++ [p.name ++ suffix]⟩

theorem Path.ofChars_slash {s : List Char} (hword : ∃ c ∈ s, c ≠ '/') :
    ofChars (s ++ ['/']) = ofChars s := by
  have hslashes : (s ++ ['/']).takeWhile (· = '/') = s.takeWhile (· = '/') := by
    rw [List.takeWhile_append, if_neg]
    intro hlength
    obtain ⟨c, hmem, hc⟩ := hword
    have hall := List.takeWhile_eq_self_iff.1 ((List.takeWhile_prefix _).eq_of_length hlength)
    simpa [hc] using hall c hmem
  simp [ofChars, hslashes, splitOn_append, splitOn]

theorem Path.ancestors_of_root {p : Path} (h : p.parts = []) : p.ancestors = [p] := by
  obtain ⟨anchor, parts⟩ := p
  obtain rfl : parts = [] := h
  rfl

theorem Path.ancestors_eq {p : Path} (h : p.parts ≠ []) : p.ancestors = p :: p.parent.ancestors := by
  have hlength : p.parent.parts.length + 1 = p.parts.length := by
    rw [parent, List.length_dropLast, Nat.sub_add_cancel (List.length_pos_iff.2 h)]
  rw [ancestors, ancestors, hlength, List.range_succ_eq_map, List.map_cons, List.map_map]
  refine congrArg₂ List.cons (by simp) (List.map_congr_left fun n _ => ?_)
  simp only [Function.comp_apply, parent, List.dropLast_eq_take, List.take_take, List.length_take]
  congr 2
  omega

namespace Package

variable {t : Tree} {target directory base : Path} {specifier : String} {extensions : List String}
  {looks before after : List Look} {missing : ResolutionError} {result : Except ResolutionError Path}

inductive IsPath : String → Prop
  | here : IsPath "."
  | above : IsPath ".."
  | inside (rest : String) : IsPath ("./" ++ rest)
  | beside (rest : String) : IsPath ("../" ++ rest)
  | root (rest : String) : IsPath ("/" ++ rest)

/-- From a directory upwards, nearest first, those that are not named `node_modules`. -/
inductive Upwards : Path → List Path → Prop
  | root {directory : Path} (h : directory.parts = []) : Upwards directory [directory]
  | packages {directory : Path} {above : List Path} (h : directory.parts ≠ [])
      (name : directory.name = "node_modules") (further : Upwards directory.parent above) :
      Upwards directory above
  | other {directory : Path} {above : List Path} (h : directory.parts ≠ [])
      (name : directory.name ≠ "node_modules") (further : Upwards directory.parent above) :
      Upwards directory (directory :: above)

inductive Targets (base : Path) (specifier : String) : List Path → Prop
  | path (h : IsPath specifier) : Targets base specifier [base.child specifier]
  | bare {directories : List Path} (h : ¬ IsPath specifier) (upwards : Upwards base directories) :
      Targets base specifier (directories.map fun directory =>
        (directory.child "node_modules").child specifier)

/-- The directory has a manifest that can be read and names a main file. -/
inductive DeclaresMain (t : Tree) (target : Path) (main : String) : Prop
  | intro {entries : Entries Eval.Value} (holds : Holds t (target.child "package.json") (.object entries))
      (declared : Entries.get? "main" entries = some (.scalar (.string main))) (nonempty : main ≠ "")

def siblings (p : Path) (extensions : List String) : List Path := extensions.map p.withSuffix

def indexes (p : Path) (extensions : List String) : List Path :=
  extensions.map fun extension => p.child ("index" ++ extension)

def files (ps : List Path) : List Look := ps.map .file

/-- Where a target may lead, in order: to itself, to what has its name with an extension and, from a
directory, to the main file that its manifest names and to an index file. -/
inductive Candidates (t : Tree) (extensions : List String) (target : Path) : List Look → Prop
  | other (kind : t.holdsDirectory target = false) :
      Candidates t extensions target (files (target :: siblings target extensions))
  | directory (kind : t.holdsDirectory target = true) (unnamed : ∀ main, ¬ DeclaresMain t target main) :
      Candidates t extensions target (files (target :: siblings target extensions) ++
        .manifest (target.child "package.json") :: files (indexes target extensions))
  | package {main : String} (kind : t.holdsDirectory target = true) (named : DeclaresMain t target main) :
      Candidates t extensions target (files (target :: siblings target extensions) ++
        .manifest (target.child "package.json") ::
          (files (target.child main :: siblings (target.child main) extensions) ++
            files (indexes (target.child main) extensions) ++ files (indexes target extensions)))

/-- What looking in turn comes to: the first file, the first look that is refused, or nothing. -/
inductive Outcome (t : Tree) (looks : List Look) (missing : ResolutionError) :
    Except ResolutionError Path → Prop
  | found {before after : List Look} {p file : Path} (split : looks = before ++ .file p :: after)
      (missed : ∀ other ∈ before, other.settled? t = none) (isFile : t.isFile p = .ok true)
      (resolved : t.resolve p = .ok file) : Outcome t looks missing (.ok file)
  | refused {before after : List Look} {look : Look} {fault : Tree.Fault}
      (split : looks = before ++ look :: after) (missed : ∀ other ∈ before, other.settled? t = none)
      (refused : look.settled? t = some (.error (.access fault))) :
      Outcome t looks missing (.error (.access fault))
  | missing (missed : ∀ look ∈ looks, look.settled? t = none) : Outcome t looks missing (.error missing)

/-- There is a last component that an extension can be appended to. -/
structure Nameable (t : Tree) (target : Path) : Prop where
  own : target.parts ≠ []
  main : ∀ main, t.holdsDirectory target = true → DeclaresMain t target main →
    (target.child main).parts ≠ []

def Appendable (extensions : List String) : Prop := ∀ extension ∈ extensions, '/' ∉ extension.toList

theorem isPathSpecifier_iff : isPathSpecifier specifier = true ↔ IsPath specifier := by
  have hstart (start : String) : start.toList.isPrefixOf specifier.toList = true ↔
      ∃ rest, specifier = start ++ rest := by
    rw [List.isPrefixOf_iff_prefix]
    constructor
    · rintro ⟨rest, hrest⟩
      exact ⟨String.ofList rest, String.toList_inj.1 (by simp [hrest])⟩
    · rintro ⟨rest, rfl⟩
      simp
  simp only [isPathSpecifier, List.any_cons, List.any_nil, Bool.or_false, Bool.or_eq_true, hstart,
    decide_eq_true_eq]
  constructor
  · rintro ((rfl | rfl) | ⟨rest, rfl⟩ | ⟨rest, rfl⟩ | ⟨rest, rfl⟩)
    · exact .here
    · exact .above
    · exact .inside rest
    · exact .beside rest
    · exact .root rest
  · rintro (_ | _ | rest | rest | rest)
    · exact .inl (.inl rfl)
    · exact .inl (.inr rfl)
    · exact .inr (.inl ⟨rest, rfl⟩)
    · exact .inr (.inr (.inl ⟨rest, rfl⟩))
    · exact .inr (.inr (.inr ⟨rest, rfl⟩))

theorem upwards_ancestors (base : Path) :
    Upwards base (base.ancestors.filter (·.name ≠ "node_modules")) := by
  induction hn : base.parts.length generalizing base with
  | zero =>
      have hparts := List.length_eq_zero_iff.1 hn
      have hname : base.name = "" := by simp [Path.name, hparts]
      rw [Path.ancestors_of_root hparts, List.filter_singleton, hname]
      exact .root hparts
  | succ n ih =>
      have hparts : base.parts ≠ [] := by
        rintro hnil
        simp [hnil] at hn
      have hfurther := ih base.parent (by simp [Path.parent, hn])
      rw [Path.ancestors_eq hparts, List.filter_cons]
      split_ifs with hname
      · exact .other hparts (by simpa using hname) hfurther
      · exact .packages hparts (by simpa using hname) hfurther

theorem Upwards.eq {directories : List Path} (h : Upwards base directories) :
    directories = base.ancestors.filter (·.name ≠ "node_modules") := by
  induction h with
  | @root directory h =>
      have hname : directory.name = "" := by simp [Path.name, h]
      rw [Path.ancestors_of_root h, List.filter_singleton, hname]
      rfl
  | packages h name _ ih => rw [Path.ancestors_eq h, List.filter_cons_of_neg (by simpa using name), ih]
  | other h name _ ih => rw [Path.ancestors_eq h, List.filter_cons_of_pos (by simpa using name), ih]

theorem targets_spec (base : Path) (specifier : String) : Targets base specifier (targets base specifier) := by
  rw [targets]
  split_ifs with hpath
  · exact .path (isPathSpecifier_iff.1 hpath)
  · have hbare := Targets.bare (mt isPathSpecifier_iff.2 hpath) (upwards_ancestors base)
    rwa [moduleDirectories, List.map_map]

theorem Targets.eq {ps : List Path} (h : Targets base specifier ps) : ps = targets base specifier := by
  cases h with
  | path h => rw [targets, if_pos (isPathSpecifier_iff.2 h)]
  | bare h upwards =>
      rw [targets, if_neg (mt isPathSpecifier_iff.1 h), moduleDirectories, ← upwards.eq, List.map_map]
      rfl

theorem map_addExtension? (h : target.parts ≠ []) (hextensions : Appendable extensions) :
    extensions.map (fun extension => (target.addExtension? extension).elim Look.unnamed .file) =
      files (siblings target extensions) := by
  rw [files, siblings, List.map_map]
  refine List.map_congr_left fun extension hmem => ?_
  have hsplit := splitOn_of_notMem (hextensions extension hmem)
  simp [Path.addExtension?, Path.withSuffix, Path.name, List.getLast?_eq_some_getLast h, hsplit]

theorem fileLooks_eq (h : target.parts ≠ []) (hextensions : Appendable extensions) :
    fileLooks target extensions = files (target :: siblings target extensions) := by
  rw [fileLooks, map_addExtension? h hextensions]
  rfl

theorem indexLooks_eq (target : Path) (extensions : List String) :
    indexLooks target extensions = files (indexes target extensions) := by
  simp [indexLooks, indexes, files]

theorem declaresMain_iff {main : String} :
    DeclaresMain t target main ↔ mainIn? t (target.child manifestName) = some main := by
  rw [mainIn?_eq_some_iff]
  constructor
  · rintro ⟨hholds, hdeclared, hnonempty⟩
    exact ⟨hnonempty, _, hholds, hdeclared⟩
  · rintro ⟨hnonempty, _, hholds, hdeclared⟩
    exact .intro hholds hdeclared hnonempty

theorem candidates_targetLooks (hextensions : Appendable extensions) (h : Nameable t target) :
    Candidates t extensions target (targetLooks t extensions target) := by
  rw [targetLooks, directoryLooks, fileLooks_eq h.own hextensions]
  split_ifs with hkind
  · rw [mainLooks, indexLooks_eq]
    cases hmain : mainIn? t (target.child manifestName) with
    | none => exact .directory hkind fun main hdeclares => by simp [declaresMain_iff.1 hdeclares] at hmain
    | some main =>
        have hdeclares := declaresMain_iff.2 hmain
        dsimp only
        rw [fileLooks_eq (h.main main hkind hdeclares) hextensions, indexLooks_eq]
        exact .package hkind hdeclares
  · rw [List.append_nil]
    exact .other (by simpa using hkind)

theorem Candidates.named {looks : List Look} (h : Candidates t extensions target looks) :
    ∀ look ∈ looks, look ≠ .unnamed := by
  cases h <;> simp +contextual [files, or_imp, forall_and]

theorem exists_fault {look : Look} {e : ResolutionError} (h : look ≠ .unnamed)
    (hbroken : look.settled? t = some (.error e)) : ∃ fault, e = .access fault := by
  cases look with
  | file p => rcases hfile : t.isFile p with fault | _ | _ <;> simp_all [Look.settled?, eq_comm]
  | manifest p => cases hfile : t.isFile p <;> simp_all [Look.settled?, eq_comm]
  | unnamed => exact absurd rfl h

theorem outcome_search (hnamed : ∀ look ∈ looks, look ≠ .unnamed) :
    Outcome t looks missing (concluded t missing (search t looks)) := by
  rcases hsearch : search t looks with e | _ | p
  · obtain ⟨before, look, after, hsplit, hmissed, hbroken⟩ := search_eq_error_iff.1 hsearch
    obtain ⟨fault, rfl⟩ := exists_fault (hnamed look (by simp [hsplit])) hbroken
    exact .refused hsplit hmissed hbroken
  · exact .missing (search_eq_none_iff.1 hsearch)
  · obtain ⟨before, after, hsplit, hmissed, hfile⟩ := search_eq_some_iff.1 hsearch
    obtain ⟨file, hresolved, -⟩ := Tree.resolve_of_isFile hfile
    rw [concluded, hresolved]
    exact .found hsplit hmissed hfile hresolved

theorem Outcome.file_spec {file : Path} (h : Outcome t looks missing (.ok file)) :
    file.isAbsolute = true ∧ t.holdsFile file = true ∧ t.resolve file = .ok file := by
  obtain ⟨-, -, hfile, hresolved⟩ := h
  obtain ⟨file', hresolved', hspec⟩ := Tree.resolve_of_isFile hfile
  obtain rfl := Except.ok.inj (hresolved.symm.trans hresolved')
  exact hspec

theorem Outcome.eq_missing_iff (h : Outcome t looks (.notFound specifier from_) result) :
    result = .error (.notFound specifier from_) ↔ ∀ look ∈ looks, look.settled? t = none := by
  cases h with
  | found hsplit _ hfile =>
      simp only [reduceCtorEq, false_iff, hsplit]
      intro hnone
      simpa [Look.settled?, hfile] using hnone _ (List.mem_append_right _ List.mem_cons_self)
  | refused hsplit _ hrefused =>
      simp only [Except.error.injEq, reduceCtorEq, false_iff, hsplit]
      intro hnone
      simpa [hrefused] using hnone _ (List.mem_append_right _ List.mem_cons_self)
  | missing hmissed => exact iff_of_true rfl hmissed

theorem named_of_nameable (hextensions : Appendable extensions) {targets : List Path}
    (hnames : ∀ target ∈ targets, Nameable t target) :
    ∀ look ∈ targets.flatMap (targetLooks t extensions), look ≠ .unnamed := by
  intro look hmem
  obtain ⟨target, htarget, hlook⟩ := List.mem_flatMap.1 hmem
  exact (candidates_targetLooks hextensions (hnames target htarget)).named look hlook

/-- A specifier leads to what the first of its candidates resolves to that is a file, whose path is then
absolute and resolved. Without a file among them it is not found. Only what the system refuses to tell
ends the search otherwise. -/
theorem resolveModule_first (hextensions : Appendable extensions)
    (hnames : ∀ base targets, t.resolve directory = .ok base → Targets base specifier targets →
      ∀ target ∈ targets, Nameable t target) :
    (∀ fault, t.resolve directory = .error fault →
      resolveModule t specifier directory extensions = .error (.access fault)) ∧
    (∀ base, t.resolve directory = .ok base → ∃ targets candidates, Targets base specifier targets ∧
      List.Forall₂ (Candidates t extensions) targets candidates ∧
      Outcome t candidates.flatten (.notFound specifier base.toString)
        (resolveModule t specifier directory extensions) ∧
      (resolveModule t specifier directory extensions = .error (.notFound specifier base.toString) ↔
        ∀ look ∈ candidates.flatten, look.settled? t = none)) ∧
    ∀ file, resolveModule t specifier directory extensions = .ok file →
      file.isAbsolute = true ∧ t.holdsFile file = true ∧ t.resolve file = .ok file := by
  cases hbase : t.resolve directory with
  | error fault => simp [resolveModule_of_resolve hbase]
  | ok base =>
      have htargets := hnames base _ hbase (targets_spec base specifier)
      have houtcome : Outcome t _ (.notFound specifier base.toString) _ :=
        outcome_search (named_of_nameable hextensions htargets)
      rw [← resolveModule_eq hbase] at houtcome
      refine ⟨by simp, fun base' hbase' => ?_, fun file hfile => (hfile ▸ houtcome).file_spec⟩
      obtain rfl := Except.ok.inj hbase'
      refine ⟨_, (targets base specifier).map (targetLooks t extensions), targets_spec base specifier, ?_, ?_⟩
      · exact List.forall₂_map_right_iff.2 (List.forall₂_same.2 fun target hmem =>
          candidates_targetLooks hextensions (htargets target hmem))
      · rw [← List.flatMap_def]
        exact ⟨houtcome, houtcome.eq_missing_iff⟩

def linkedPackages : Tree where
  entries := [
    (["app", "node_modules", "kit"], .link "../../store/kit"),
    (["store", "kit", "package.json"], .file "\x7b\"main\": \"lib\"\x7d".toUTF8.toList),
    (["store", "kit", "lib", "index.js"], .file []),
    (["store", "kit", "index.js"], .file []),
    (["node_modules", "kit.js"], .file []),
    (["app", "src", "App.js"], .file [])]

theorem linkedPackages_first :
    Appendable [".ts", ".js"] ∧
      (∀ base targets, linkedPackages.resolve (Path.ofString "/app/src") = .ok base →
        Targets base "kit" targets → ∀ target ∈ targets, Nameable linkedPackages target) ∧
      (∃ targets candidates, Targets (Path.ofString "/app/src") "kit" targets ∧
        List.Forall₂ (Candidates linkedPackages [".ts", ".js"]) targets candidates ∧
        Outcome linkedPackages candidates.flatten (.notFound "kit" "/app/src")
          (.ok (Path.ofString "/store/kit/lib/index.js"))) ∧
      linkedPackages.resolve (Path.ofString "/store/kit/lib/index.js") =
        .ok (Path.ofString "/store/kit/lib/index.js") := by
  have hextensions : Appendable [".ts", ".js"] := by
    rw [Appendable]
    decide
  have hbase : linkedPackages.resolve (Path.ofString "/app/src") = .ok (Path.ofString "/app/src") := by
    decide +kernel
  have hparts : ∀ target ∈ targets (Path.ofString "/app/src") "kit", target.parts ≠ [] ∧
      (mainIn? linkedPackages (target.child manifestName) = none ∨
        mainIn? linkedPackages (target.child manifestName) = some "lib" ∧ (target.child "lib").parts ≠ []) := by
    decide +kernel
  have hnames : ∀ base targets, linkedPackages.resolve (Path.ofString "/app/src") = .ok base →
      Targets base "kit" targets → ∀ target ∈ targets, Nameable linkedPackages target := by
    intro base targets hbase' htargets target hmem
    obtain rfl := Except.ok.inj (hbase.symm.trans hbase')
    rw [htargets.eq] at hmem
    obtain ⟨hown, hmain⟩ := hparts target hmem
    refine ⟨hown, fun main _ hdeclares => ?_⟩
    rw [declaresMain_iff] at hdeclares
    obtain hmain | ⟨hmain, hchild⟩ := hmain
    · simp [hmain] at hdeclares
    · obtain rfl := Option.some.inj (hmain.symm.trans hdeclares)
      exact hchild
  obtain ⟨-, houtcome, hfile⟩ := resolveModule_first hextensions hnames
  have hfound : resolveModule linkedPackages "kit" (Path.ofString "/app/src") [".ts", ".js"] =
      .ok (Path.ofString "/store/kit/lib/index.js") := by
    decide +kernel
  obtain ⟨targets, candidates, htargets, hcandidates, hfirst, -⟩ := houtcome _ hbase
  rw [hfound] at hfirst
  exact ⟨hextensions, hnames, ⟨targets, candidates, htargets, hcandidates, hfirst⟩, (hfile _ hfound).2.2⟩

def NamesDirectory (specifier : String) : Prop :=
  specifier = "." ∨ ['/'] <:+ specifier.toList ∨ ['/', '.'] <:+ specifier.toList

/-- A slash at the end is lost before anything is tried. -/
theorem targets_slash (base : Path) (hword : ∃ c ∈ specifier.toList, c ≠ '/') :
    targets base (specifier ++ "/") = targets base specifier := by
  have hchild (p : Path) : p.child (specifier ++ "/") = p.child specifier := by
    rw [Path.child, Path.child, Path.ofString, String.toList_append]
    exact congrArg p.join (Path.ofChars_slash hword)
  have hpath : isPathSpecifier (specifier ++ "/") = isPathSpecifier specifier := by
    obtain ⟨s, rfl⟩ : ∃ s, specifier = String.ofList s := ⟨specifier.toList, by simp⟩
    rcases s with _ | ⟨a, _ | ⟨b, _ | ⟨c, s⟩⟩⟩
    · simp at hword
    all_goals simp [isPathSpecifier, ← String.toList_inj, List.isPrefixOf, Bool.beq_eq_decide_eq,
      @eq_comm Char '.', Bool.or_left_comm]
  simp only [targets, hpath, hchild]

/-- A specifier that leads to a directory without a main file leads to an index file of it, and else to
what lies farther up; never to a file that has the name of the directory with an extension. -/
structure KeepsInside (t : Tree) (specifier : String) (directory base : Path) (extensions : List String)
    (target : Path) (farther : List Path) : Prop where
  result : Outcome t
    (.manifest (target.child manifestName) :: files (indexes target extensions) ++
      farther.flatMap (targetLooks t extensions))
    (.notFound specifier base.toString) (resolveModule t specifier directory extensions)
  beside : ∀ sibling ∈ siblings target extensions,
    resolveModule t specifier directory extensions ≠ .ok sibling

theorem targetLooks_of_directory (hextensions : Appendable extensions) (hname : target.parts ≠ [])
    (hdir : t.isDirectory target = .ok true) (hmain : ∀ main, ¬ DeclaresMain t target main) :
    targetLooks t extensions target = .file target :: (files (siblings target extensions) ++
      .manifest (target.child manifestName) :: files (indexes target extensions)) := by
  have hnone : mainIn? t (target.child manifestName) = none :=
    Option.eq_none_iff_forall_ne_some.2 fun main => mt declaresMain_iff.2 (hmain main)
  rw [targetLooks, directoryLooks, if_pos (Tree.isDirectory_eq_ok_iff.1 hdir).2, mainLooks, hnone,
    fileLooks_eq hname hextensions, indexLooks_eq]
  rfl

theorem search_directory (hdir : t.isDirectory target = .ok true) : search t [.file target] = .ok none := by
  obtain ⟨hdenied, hholds⟩ := Tree.isDirectory_eq_ok_iff.1 hdir
  have hfile : t.isFile target = .ok false :=
    Tree.isFile_eq_ok_iff.2 ⟨hdenied, Tree.holdsFile_of_holdsDirectory hholds⟩
  rw [search_file, checkFile, hfile]
  rfl

/-- A directory without a main file leads to the first file beside it that has its name with an extension,
if there is one. Only if there is none does it lead to what is in it. -/
theorem resolveModule_directory {nearer farther : List Path} (hextensions : Appendable extensions)
    (hbase : t.resolve directory = .ok base)
    (hnames : ∀ target ∈ targets base specifier, Nameable t target)
    (htargets : targets base specifier = nearer ++ target :: farther)
    (hnearer : ∀ look ∈ nearer.flatMap (targetLooks t extensions), look.settled? t = none)
    (hdir : t.isDirectory target = .ok true) (hmain : ∀ main, ¬ DeclaresMain t target main) :
    match search t (files (siblings target extensions)) with
    | .ok (some sibling) => ∃ file, t.resolve sibling = .ok file ∧
        resolveModule t specifier directory extensions = .ok file
    | .ok none => KeepsInside t specifier directory base extensions target farther
    | .error e => resolveModule t specifier directory extensions = .error e := by
  have hnamed := named_of_nameable hextensions hnames
  have hown := (hnames target (by simp [htargets])).own
  -- the directory is no file itself, so what lies beside it comes first
  have hlooks : (targets base specifier).flatMap (targetLooks t extensions) =
      nearer.flatMap (targetLooks t extensions) ++ ([.file target] ++ (files (siblings target extensions) ++
        (.manifest (target.child manifestName) :: files (indexes target extensions) ++
          farther.flatMap (targetLooks t extensions)))) := by
    rw [htargets, List.flatMap_append, List.flatMap_cons, targetLooks_of_directory hextensions hown hdir hmain]
    simp
  have hresult : resolveModule t specifier directory extensions = _ := resolveModule_eq hbase
  rw [hlooks, search_append_of_missed (search_eq_none_iff.2 hnearer),
    search_append_of_missed (search_directory hdir)] at hresult
  rcases hsearch : search t (files (siblings target extensions)) with e | _ | sibling
  · rw [search_append, hsearch] at hresult
    exact hresult
  · rw [search_append_of_missed hsearch] at hresult
    rw [hlooks] at hnamed
    have hinside : ∀ look ∈ .manifest (target.child manifestName) :: files (indexes target extensions) ++
        farther.flatMap (targetLooks t extensions), look ≠ .unnamed := fun look hmem =>
      hnamed look (List.mem_append_right _ (List.mem_append_right _ (List.mem_append_right _ hmem)))
    have houtcome : Outcome t _ (.notFound specifier base.toString) _ := outcome_search hinside
    rw [← hresult] at houtcome
    refine ⟨houtcome, fun sibling hmem hok => ?_⟩
    have hmissed := search_eq_none_iff.1 hsearch (.file sibling) (List.mem_map_of_mem hmem)
    have hfile := (hok ▸ houtcome).file_spec.2.1
    rcases hasked : t.isFile sibling with fault | _ | _
    · simp [Look.settled?, hasked] at hmissed
    · simp [(Tree.isFile_eq_ok_iff.1 hasked).2] at hfile
    · simp [Look.settled?, hasked] at hmissed
  · obtain ⟨-, -, -, -, hfile⟩ := search_eq_some_iff.1 hsearch
    obtain ⟨file, hresolved, -⟩ := Tree.resolve_of_isFile hfile
    rw [search_append, hsearch] at hresult
    have hconcluded : resolveModule t specifier directory extensions = (t.resolve sibling).mapError .access :=
      hresult
    exact ⟨file, hresolved, by rw [hconcluded, hresolved]; rfl⟩

def libraries : Tree where
  entries := [
    (["p", "kit", "index.js"], .file []),
    (["p", "lib", "index.js"], .file []),
    (["p", "lib.js"], .file [])]

theorem libraries_inside :
    Appendable [".js"] ∧ NamesDirectory "./kit/" ∧ libraries.isDirectory (Path.ofString "/p/kit") = .ok true ∧
      KeepsInside libraries "./kit/" (Path.ofString "/p") (Path.ofString "/p") [".js"]
        (Path.ofString "/p/kit") [] := by
  have hextensions : Appendable [".js"] := by
    rw [Appendable]
    decide
  have hbase : libraries.resolve (Path.ofString "/p") = .ok (Path.ofString "/p") := by decide +kernel
  have htargets : targets (Path.ofString "/p") "./kit/" = [] ++ Path.ofString "/p/kit" :: [] := by
    decide +kernel
  have hnone : mainIn? libraries ((Path.ofString "/p/kit").child manifestName) = none := by decide +kernel
  have hmain (main : String) : ¬ DeclaresMain libraries (Path.ofString "/p/kit") main := by
    simp [declaresMain_iff, hnone]
  have hnames : ∀ target ∈ targets (Path.ofString "/p") "./kit/", Nameable libraries target := by
    rw [htargets, List.nil_append, List.forall_mem_singleton]
    exact ⟨by decide +kernel, fun main _ hdeclares => absurd hdeclares (hmain main)⟩
  have hdir : libraries.isDirectory (Path.ofString "/p/kit") = .ok true := by decide +kernel
  have hbeside : search libraries (files (siblings (Path.ofString "/p/kit") [".js"])) = .ok none := by
    decide +kernel
  have hkept := resolveModule_directory hextensions hbase hnames htargets (by simp) hdir hmain
  rw [hbeside] at hkept
  exact ⟨hextensions, .inr (.inl (by decide)), hdir, hkept⟩

theorem libraries_beside : ¬ ∀ (t : Tree) (specifier : String) (directory base target : Path)
    (extensions : List String), NamesDirectory specifier → t.resolve directory = .ok base →
      targets base specifier = [target] → t.isDirectory target = .ok true →
        (∀ main, ¬ DeclaresMain t target main) →
          KeepsInside t specifier directory base extensions target [] := by
  intro h
  have hnone : mainIn? libraries ((Path.ofString "/p/lib").child manifestName) = none := by decide +kernel
  have hkept := h libraries "./lib/" (Path.ofString "/p") (Path.ofString "/p") (Path.ofString "/p/lib") [".js"]
    (.inr (.inl (by decide))) (by decide +kernel) (by decide +kernel) (by decide +kernel)
    (by simp [declaresMain_iff, hnone])
  have hbeside : resolveModule libraries "./lib/" (Path.ofString "/p") [".js"] =
      .ok (Path.ofString "/p/lib.js") := by
    decide +kernel
  exact hkept.beside (Path.ofString "/p/lib.js") (by decide +kernel) hbeside

end Package

end CssExtract
